import Mathlib.Data.List.Basic
import Mathlib.Order.Lattice

namespace SeekFile

variable {α : Type*}

/-- A file with a cursor. -/
structure File (α : Type*) where
  content : List α
  cursor : Nat
  deriving DecidableEq

def File.seek (file : File α) (position : Nat) : File α := { file with cursor := position }

/-- Write at the cursor, over what is there. A gap before the cursor is filled. -/
def File.writeAll (fill : α) (file : File α) (bytes : List α) : File α :=
  if bytes = [] then file
  else {
    content := file.content.take file.cursor ++
      List.replicate (file.cursor - file.content.length) fill ++ bytes ++
      file.content.drop (file.cursor + bytes.length)
    cursor := file.cursor + bytes.length }

/-- A file has some bytes at a position. -/
def Holds (content : List α) (position : Nat) (bytes : List α) : Prop :=
  (content.drop position).take bytes.length = bytes

variable {fill : α} {file : File α} {bytes other content : List α} {n position : Nat}

theorem writeAll_cursor (fill : α) (file : File α) (bytes : List α) :
    (file.writeAll fill bytes).cursor = file.cursor + bytes.length := by
  unfold File.writeAll
  split
  next h => rw [h, List.length_nil, Nat.add_zero]
  next => rfl

/-- What lies before the cursor when bytes are written. -/
theorem length_written_before (fill : α) (file : File α) :
    (file.content.take file.cursor ++
      List.replicate (file.cursor - file.content.length) fill).length = file.cursor := by
  rw [List.length_append, List.length_take, List.length_replicate]
  omega

theorem drop_writeAll (h : file.cursor + bytes.length ≤ n) :
    (file.writeAll fill bytes).content.drop n = file.content.drop n := by
  unfold File.writeAll
  split
  next => rfl
  next =>
    have hlen : (file.content.take file.cursor ++
        List.replicate (file.cursor - file.content.length) fill ++ bytes).length =
          file.cursor + bytes.length := by
      rw [List.length_append, length_written_before]
    obtain ⟨k, rfl⟩ := Nat.exists_eq_add_of_le h
    show List.drop _ (_ ++ List.drop _ _) = _
    rw [← hlen, List.drop_length_add_append, List.drop_drop, hlen]

theorem take_writeAll (h : n ≤ file.cursor) (hn : n ≤ file.content.length) :
    (file.writeAll fill bytes).content.take n = file.content.take n := by
  unfold File.writeAll
  split
  next => rfl
  next =>
    show List.take n (_ ++ _ ++ _ ++ _) = _
    rw [List.append_assoc, List.append_assoc, List.take_append_of_le_length, List.take_take,
      Nat.min_eq_left h]
    rw [List.length_take]
    omega

/-- What was written is there. -/
theorem holds_writeAll (fill : α) (file : File α) (bytes : List α) :
    Holds (file.writeAll fill bytes).content file.cursor bytes := by
  unfold Holds File.writeAll
  split
  next h => simp [h]
  next =>
    show List.take _ (List.drop _ (_ ++ _ ++ _ ++ _)) = _
    rw [List.append_assoc, List.drop_append_of_le_length (length_written_before fill file).ge,
      List.drop_of_length_le (length_written_before fill file).le, List.nil_append,
      List.take_left']
    rfl

theorem Holds.length_le (h : Holds content position bytes) (hne : bytes ≠ []) :
    position + bytes.length ≤ content.length := by
  have hlen := congrArg List.length h
  rw [List.length_take, List.length_drop] at hlen
  have := List.length_pos_iff.mpr hne
  omega

/-- A write leaves alone what lies apart from it. -/
theorem Holds.writeAll (h : Holds file.content position other)
    (hapart : position + other.length ≤ file.cursor ∨ file.cursor + bytes.length ≤ position) :
    Holds (file.writeAll fill bytes).content position other := by
  unfold Holds at h ⊢
  by_cases hne : other = []
  · simp [hne]
  rcases hapart with hbefore | hafter
  · have hle := Holds.length_le h hne
    rw [List.take_drop] at h ⊢
    rw [take_writeAll (by omega) (by omega)]
    exact h
  · rw [drop_writeAll hafter]
    exact h

end SeekFile
