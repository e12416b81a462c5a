import Mathlib.Data.List.Basic
import Mathlib.Data.Nat.Find

namespace ByteSource

variable {α ε : Type*}

/-- What a reader finds at a position: an item, the end, or an error. -/
inductive Item (α ε : Type*)
  | byte (a : α)
  | eof
  | failed (error : ε)
  deriving DecidableEq

def Item.isByte : Item α ε → Bool
  | .byte _ => true
  | _ => false

/-- The items from a position on, at most so many, up to the end or an error. -/
def grab (source : Nat → Item α ε) : Nat → Nat → List α
  | _, 0 => []
  | p, n + 1 =>
    match source p with
    | .byte a => a :: grab source (p + 1) n
    | _ => []

/-- A source has items up to a position. -/
def Has (source : Nat → Item α ε) (n : Nat) : Prop := ∀ i < n, (source i).isByte = true

def EndsAt (source : Nat → Item α ε) (n : Nat) : Prop := Has source n ∧ source n = .eof

variable {source : Nat → Item α ε} {p m n : Nat}

theorem grab_zero (source : Nat → Item α ε) (p : Nat) : grab source p 0 = [] := rfl

theorem grab_succ (source : Nat → Item α ε) (p n : Nat) :
    grab source p (n + 1) = match source p with
      | .byte a => a :: grab source (p + 1) n
      | _ => [] := rfl

theorem grab_of_not_byte (h : (source p).isByte = false) (n : Nat) : grab source p n = [] := by
  cases n with
  | zero => rfl
  | succ n =>
    rw [grab_succ]
    cases hp : source p with
    | byte a => simp [hp, Item.isByte] at h
    | eof => rfl
    | failed error => rfl

theorem length_grab_le (source : Nat → Item α ε) (p n : Nat) : (grab source p n).length ≤ n := by
  induction n generalizing p with
  | zero => exact le_rfl
  | succ n ih =>
    rw [grab_succ]
    split
    next => exact Nat.succ_le_succ (ih (p + 1))
    next => exact Nat.zero_le _

theorem length_grab_pos (h : (source p).isByte = true) (hn : 0 < n) :
    0 < (grab source p n).length := by
  obtain ⟨n, rfl⟩ := Nat.exists_eq_add_one.mpr hn
  rw [grab_succ]
  cases hp : source p with
  | byte a => simp
  | eof => simp [hp, Item.isByte] at h
  | failed error => simp [hp, Item.isByte] at h

/-- Every item that was taken lies in the source. -/
theorem isByte_of_lt_length (h : m < (grab source p n).length) : (source (p + m)).isByte = true := by
  induction n generalizing p m with
  | zero => simp [grab_zero] at h
  | succ n ih =>
    rw [grab_succ] at h
    split at h
    next a hp =>
      cases m with
      | zero => rw [Nat.add_zero, hp]; rfl
      | succ m =>
        have := ih (p := p + 1) (m := m) (by simpa using h)
        rwa [show p + (m + 1) = p + 1 + m by omega]
    next => simp at h

theorem length_grab_eq_iff :
    (grab source p n).length = n ↔ ∀ i < n, (source (p + i)).isByte = true := by
  constructor
  · intro h i hi
    exact isByte_of_lt_length (h ▸ hi)
  · intro h
    induction n generalizing p with
    | zero => rfl
    | succ n ih =>
      have h0 := h 0 (Nat.succ_pos n)
      rw [grab_succ]
      cases hp : source p with
      | byte a =>
        refine congrArg Nat.succ (ih fun i hi => ?_)
        rw [show p + 1 + i = p + (i + 1) by omega]
        exact h (i + 1) (by omega)
      | eof => simp [hp, Item.isByte] at h0
      | failed error => simp [hp, Item.isByte] at h0

theorem length_grab_of_has (h : Has source (p + n)) : (grab source p n).length = n :=
  length_grab_eq_iff.mpr fun i hi => h (p + i) (by omega)

/-- What stops short stops where there is no item. -/
theorem not_isByte_of_length_lt (h : (grab source p n).length < n) :
    (source (p + (grab source p n).length)).isByte = false := by
  induction n generalizing p with
  | zero => simp at h
  | succ n ih =>
    rw [grab_succ] at h ⊢
    cases hp : source p with
    | byte a =>
      simp only [hp, List.length_cons] at h ⊢
      have := ih (p := p + 1) (by omega)
      rwa [show p + ((grab source (p + 1) n).length + 1) =
        p + 1 + (grab source (p + 1) n).length by omega]
    | eof => simp [hp, Item.isByte]
    | failed error => simp [hp, Item.isByte]

theorem take_grab (source : Nat → Item α ε) (p m n : Nat) :
    (grab source p n).take m = grab source p (Nat.min m n) := by
  induction n generalizing p m with
  | zero => simp [grab_zero]
  | succ n ih =>
    cases m with
    | zero => simp [grab_zero]
    | succ m =>
      rw [show Nat.min (m + 1) (n + 1) = Nat.min m n + 1 from Nat.succ_min_succ m n, grab_succ, grab_succ]
      split
      next => rw [List.take_succ_cons, ih]
      next => rfl

/-- What was read in full can be read on. -/
theorem grab_add (h : (grab source p m).length = m) (n : Nat) :
    grab source p (m + n) = grab source p m ++ grab source (p + m) n := by
  induction m generalizing p with
  | zero => rw [Nat.zero_add, grab_zero, List.nil_append, Nat.add_zero]
  | succ m ih =>
    rw [show m + 1 + n = (m + n) + 1 by omega, grab_succ, grab_succ]
    rw [grab_succ] at h
    cases hp : source p with
    | byte a =>
      simp only [hp, List.length_cons] at h ⊢
      rw [ih (by omega), List.cons_append, show p + 1 + m = p + (m + 1) by omega]
    | eof => simp [hp] at h
    | failed error => simp [hp] at h

/-- Nothing more is read past what stopped short. -/
theorem grab_of_stop (h : (grab source p m).length = m) (hs : (source (p + m)).isByte = false)
    (n : Nat) : grab source p (m + n) = grab source p m := by
  rw [grab_add h, grab_of_not_byte hs, List.append_nil]

/-- Asking for as much as was read reads the same. -/
theorem grab_length_grab (source : Nat → Item α ε) (p n : Nat) :
    grab source p (grab source p n).length = grab source p n := by
  obtain ⟨k, hk⟩ : ∃ k, k = (grab source p n).length := ⟨_, rfl⟩
  have hle := length_grab_le source p n
  rw [← hk] at hle ⊢
  rcases Nat.eq_or_lt_of_le hle with rfl | hlt
  · rfl
  · have hfull : (grab source p k).length = k :=
      length_grab_eq_iff.mpr fun i hi => isByte_of_lt_length (hk ▸ hi)
    have hs := not_isByte_of_length_lt (hk ▸ hlt)
    rw [← hk] at hs
    have := grab_of_stop hfull hs (n - k)
    rwa [Nat.add_sub_cancel' hle, eq_comm] at this

theorem Has.mono (h : Has source n) (hm : m ≤ n) : Has source m := fun i hi => h i (by omega)

/-- A source that stops has no more items than that. -/
theorem Has.le_of_stop (h : Has source n) (hs : (source m).isByte = false) : n ≤ m := by
  by_contra hlt
  have := h m (by omega)
  simp [hs] at this

end ByteSource
