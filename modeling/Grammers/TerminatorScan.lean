import Grammers.ByteSource

/-! Reading up to the first terminator, from a source that comes in pieces. -/

namespace TerminatorScan

open ByteSource

variable {α ε : Type} (t : List α)

/-- No terminator ends in the text. -/
def Clear (text : List α) : Prop := ∀ e ≤ text.length, ¬t <:+ text.take e

/-- A text that ends with its first terminator. -/
def Terminated (text : List α) : Prop := t <:+ text ∧ Clear t text.dropLast

inductive Found (α ε : Type)
  | ended (text : List α)
  | tooLong
  | eof
  | failed (error : ε)

section

variable {t} {text : List α}

/-- A terminator at the end of a part of the text is a window of the text. -/
theorem suffix_take_iff {e : Nat} (he : e ≤ text.length) :
    t <:+ text.take e ↔ t.length ≤ e ∧ (text.drop (e - t.length)).take t.length = t := by
  have hlen : (text.take e).length = e := by rw [List.length_take]; omega
  rw [List.suffix_iff_eq_drop, hlen]
  constructor
  · intro h
    have hle : t.length ≤ e := by
      have := congrArg List.length h
      rw [List.length_drop, hlen] at this
      omega
    refine ⟨hle, ?_⟩
    rw [List.drop_take, Nat.sub_sub_self hle] at h
    exact h.symm
  · rintro ⟨hle, h⟩
    rw [List.drop_take, Nat.sub_sub_self hle, h]

theorem Clear.append {more : List α} (h : Clear t text)
    (hmore : ∀ e, text.length < e → e ≤ (text ++ more).length → ¬t <:+ (text ++ more).take e) :
    Clear t (text ++ more) := by
  intro e he
  rcases Nat.lt_or_ge text.length e with hlt | hle
  · exact hmore e hlt he
  · rw [List.take_append_of_le_length hle]
    exact h e hle

theorem Clear.of_append {more : List α} (h : Clear t (text ++ more)) : Clear t text := by
  intro e he
  have := h e (by rw [List.length_append]; omega)
  rwa [List.take_append_of_le_length he] at this

theorem clear_nil (ht : t ≠ []) : Clear t [] := by
  intro e _ h
  rw [List.take_nil, List.suffix_nil] at h
  exact ht h

end

variable [DecidableEq α]

/-- Item by item, with room for so many more. -/
def scan (source : Nat → Item α ε) : Nat → Nat → List α → Found α ε × Nat
  | 0, p, _ => (.tooLong, p)
  | room + 1, p, text =>
    match source p with
    | .eof => (.eof, p)
    | .failed error => (.failed error, p)
    | .byte a =>
      if t <:+ text ++ [a] then (.ended (text ++ [a]), p + 1) else scan source room (p + 1) (text ++ [a])

/-- Where the first window is that holds the terminator. -/
def position : List α → Option Nat
  | [] => none
  | a :: text => if (a :: text).take t.length = t then some 0 else (position text).map (· + 1)

/-- A text with a piece added, up to the terminator if one ends in the piece. -/
def extendTo (text chunk : List α) : List α × Bool :=
  let previous := text.length
  let start := previous - (t.length - 1)
  match position t ((text ++ chunk).drop start) with
  | some offset => ((text ++ chunk).take (start + offset + t.length), true)
  | none => (text ++ chunk, false)

variable {t} {source : Nat → Item α ε} {text chunk : List α} {p room : Nat}

theorem position_some {o : Nat} (h : position t text = some o) :
    (text.drop o).take t.length = t ∧ ∀ i < o, (text.drop i).take t.length ≠ t := by
  induction text generalizing o with
  | nil => cases h
  | cons a text ih =>
    rw [position] at h
    split at h
    next hhere =>
      cases h
      exact ⟨hhere, nofun⟩
    next hnot =>
      obtain ⟨o, ho, rfl⟩ := Option.map_eq_some_iff.mp h
      obtain ⟨htake, hfirst⟩ := ih ho
      refine ⟨htake, fun i hi => ?_⟩
      cases i with
      | zero => exact hnot
      | succ i => exact hfirst i (by omega)

theorem position_none (ht : t ≠ []) (h : position t text = none) (i : Nat) :
    (text.drop i).take t.length ≠ t := by
  induction text generalizing i with
  | nil => simpa using ht.symm
  | cons a text ih =>
    rw [position] at h
    split at h
    next => cases h
    next hnot =>
      cases i with
      | zero => exact hnot
      | succ i => exact ih (Option.map_eq_none_iff.mp h) i

/-- What is added ends with the first terminator, or no terminator ends in the text with it. -/
theorem extendTo_spec (ht : t ≠ []) (hclear : Clear t text) (chunk : List α) :
    extendTo t text chunk = (text ++ chunk, false) ∧ Clear t (text ++ chunk) ∨
      ∃ init a rest, chunk = init ++ a :: rest ∧ extendTo t text chunk = (text ++ init ++ [a], true) ∧
        Clear t (text ++ init) ∧ t <:+ text ++ init ++ [a] := by
  have htpos := List.length_pos_of_ne_nil ht
  rw [extendTo]
  -- A window before `start` lies in the old text, where no terminator ends.
  have hwindow : ∀ e, text.length < e → e ≤ (text ++ chunk).length → t <:+ (text ++ chunk).take e →
      ∃ i, e = text.length - (t.length - 1) + i + t.length ∧
        (((text ++ chunk).drop (text.length - (t.length - 1))).drop i).take t.length = t := by
    intro e hlt hle hsuffix
    obtain ⟨hte, htake⟩ := (suffix_take_iff hle).mp hsuffix
    refine ⟨e - t.length - (text.length - (t.length - 1)), by omega, ?_⟩
    rw [List.drop_drop, show text.length - (t.length - 1) + (e - t.length - (text.length - (t.length - 1))) =
      e - t.length by omega, htake]
  cases hposition : position t ((text ++ chunk).drop (text.length - (t.length - 1))) with
  | none =>
    refine Or.inl ⟨rfl, hclear.append fun e hlt hle hsuffix => ?_⟩
    obtain ⟨i, -, htake⟩ := hwindow e hlt hle hsuffix
    exact position_none ht hposition i htake
  | some o =>
    obtain ⟨htake, hfirst⟩ := position_some hposition
    refine Or.inr ?_
    have hend : text.length - (t.length - 1) + o + t.length ≤ (text ++ chunk).length := by
      have := congrArg List.length htake
      rw [List.length_take, List.length_drop, List.length_drop] at this
      omega
    have hsuffix : t <:+ (text ++ chunk).take (text.length - (t.length - 1) + o + t.length) := by
      rw [suffix_take_iff hend]
      refine ⟨by omega, ?_⟩
      rwa [Nat.add_sub_cancel, ← List.drop_drop]
    have hlt : text.length < text.length - (t.length - 1) + o + t.length := by
      by_contra hle
      refine hclear _ (Nat.not_lt.mp hle) ?_
      rwa [List.take_append_of_le_length (Nat.not_lt.mp hle)] at hsuffix
    obtain ⟨k, hk⟩ : ∃ k, text.length - (t.length - 1) + o + t.length = text.length + (k + 1) :=
      ⟨text.length - (t.length - 1) + o + t.length - text.length - 1, by omega⟩
    rw [hk] at hend hsuffix
    simp only [hk]
    have hlong : k < chunk.length := by
      rw [List.length_append] at hend
      omega
    have hsplit : (text ++ chunk).take (text.length + (k + 1)) = text ++ chunk.take k ++ [chunk[k]] := by
      rw [List.take_length_add_append, List.take_succ_eq_append_getElem hlong, List.append_assoc]
    refine ⟨chunk.take k, chunk[k], chunk.drop (k + 1), ?_, by rw [hsplit], ?_, by rwa [hsplit] at hsuffix⟩
    · rw [← List.drop_eq_getElem_cons hlong, List.take_append_drop]
    · refine hclear.append fun e hlt' hle hends => ?_
      rw [List.length_append, List.length_take, Nat.min_eq_left (Nat.le_of_lt hlong)] at hle
      have hpart : (text ++ chunk.take k).take e = (text ++ chunk).take e := by
        rw [← List.take_length_add_append, List.take_take, Nat.min_eq_left hle]
      rw [hpart] at hends
      obtain ⟨i, hi, hwin⟩ := hwindow e hlt' (by rw [List.length_append]; omega) hends
      exact hfirst i (by omega) hwin

/-- What has no terminator is read over. -/
theorem scan_skip (hchunk : grab source p chunk.length = chunk) (hclear : Clear t (text ++ chunk))
    (hroom : chunk.length ≤ room) : scan t source room p text =
      scan t source (room - chunk.length) (p + chunk.length) (text ++ chunk) := by
  induction chunk generalizing p text room with
  | nil => simp
  | cons a chunk ih =>
    obtain ⟨room, rfl⟩ := Nat.exists_eq_add_one.mpr (show 0 < room by simp at hroom; omega)
    rw [List.length_cons, grab] at hchunk
    split at hchunk
    next b hb =>
      obtain ⟨rfl, hrest⟩ := List.cons.inj hchunk
      have happend : text ++ b :: chunk = text ++ [b] ++ chunk := by simp
      rw [happend] at hclear
      have hnot : ¬t <:+ text ++ [b] := by
        have := hclear.of_append (text ++ [b]).length le_rfl
        rwa [List.take_length] at this
      rw [scan, hb]
      simp only [hnot, if_false]
      rw [ih hrest hclear (by simpa using hroom), List.length_cons, happend, Nat.add_sub_add_right,
        Nat.add_assoc, Nat.add_comm 1]
    next => cases hchunk

/-- What ends with the first terminator is where the reading ends. -/
theorem scan_ended {init : List α} {a : α} (hchunk : grab source p (init.length + 1) = init ++ [a])
    (hclear : Clear t (text ++ init)) (hsuffix : t <:+ text ++ init ++ [a]) (hroom : init.length < room) :
    scan t source room p text = (.ended (text ++ init ++ [a]), p + init.length + 1) := by
  have hinit : (grab source p init.length).length = init.length := by
    rw [length_grab_eq_iff]
    intro i hi
    exact isByte_of_lt_length (by rw [hchunk, List.length_append]; omega)
  rw [grab_add hinit] at hchunk
  obtain ⟨hskip, hlast⟩ := List.append_inj hchunk hinit
  obtain ⟨rest, hrest⟩ := Nat.exists_eq_add_one.mpr (show 0 < room - init.length by omega)
  rw [grab] at hlast
  split at hlast
  next b hb =>
    obtain rfl : b = a := by simpa [grab] using hlast
    rw [scan_skip hskip hclear (Nat.le_of_lt hroom), hrest, scan, hb]
    exact if_pos hsuffix
  next => cases hlast

/-- Where the reading ends is the first terminator, within the room there is. -/
theorem of_scan_ended {q : Nat} {found : List α} (hclear : Clear t text)
    (h : scan t source room p text = (.ended found, q)) :
    ∃ init a, found = text ++ init ++ [a] ∧ Clear t (text ++ init) ∧ t <:+ text ++ init ++ [a] ∧
      init.length < room ∧ grab source p (init.length + 1) = init ++ [a] ∧ q = p + init.length + 1 := by
  induction room generalizing p text with
  | zero => cases (Prod.mk.inj h).1
  | succ room ih =>
    rw [scan] at h
    split at h
    next => cases (Prod.mk.inj h).1
    next => cases (Prod.mk.inj h).1
    next a ha =>
      split at h
      next hsuffix =>
        obtain ⟨hfound, rfl⟩ := Prod.mk.inj h
        obtain rfl : text ++ [a] = found := by injection hfound
        exact ⟨[], a, by simp, by simpa using hclear, by simpa using hsuffix, Nat.zero_lt_succ _,
          by simp [grab, ha], rfl⟩
      next hnot =>
        have hclear' : Clear t (text ++ [a]) := hclear.append fun e hlt hle => by
          obtain rfl : e = (text ++ [a]).length := by
            rw [List.length_append] at hle ⊢
            simp at hle ⊢
            omega
          rwa [List.take_length]
        obtain ⟨init, b, rfl, hinit, hsuffix, hroom, hgrab, rfl⟩ := ih hclear' h
        refine ⟨a :: init, b, by simp, by simpa using hinit, by simpa using hsuffix, by simpa using hroom,
          ?_, by simp; omega⟩
        rw [List.length_cons, grab, ha]
        simp [hgrab]

end TerminatorScan
