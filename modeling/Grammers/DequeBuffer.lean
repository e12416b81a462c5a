import Mathlib.Data.List.Basic

/-- A buffer that grows at both ends, without copies as long as the front has room. -/
structure DequeBuffer (α : Type) where
  buffer : List α
  head : Nat
  head_le : head ≤ buffer.length

namespace DequeBuffer

variable {α : Type}

def withCapacity [Inhabited α] (frontCapacity : Nat) : DequeBuffer α :=
  ⟨List.replicate frontCapacity default, frontCapacity, by simp⟩

def asRef (d : DequeBuffer α) : List α := d.buffer.drop d.head

def len (d : DequeBuffer α) : Nat := d.buffer.length - d.head

def extend (d : DequeBuffer α) (xs : List α) : DequeBuffer α :=
  ⟨d.buffer ++ xs, d.head, by
    rw [List.length_append]
    exact Nat.le_add_right_of_le d.head_le⟩

/-- The elements in place, for as many others. -/
def replace (d : DequeBuffer α) (xs : List α) : DequeBuffer α :=
  ⟨d.buffer.take d.head ++ xs, d.head, by simp [d.head_le]⟩

/-- A range of a list, overwritten. -/
def overwrite (buffer : List α) (at' : Nat) (slice : List α) : List α :=
  buffer.take at' ++ (slice ++ buffer.drop (at' + slice.length))

theorem length_overwrite {buffer slice : List α} {at' : Nat} (h : at' + slice.length ≤ buffer.length) :
    (overwrite buffer at' slice).length = buffer.length := by
  simp only [overwrite, List.length_append, List.length_take, List.length_drop]
  omega

/-- The room at the front is used, or made by moving everything back. -/
def extendFront [Inhabited α] (d : DequeBuffer α) (slice : List α) : DequeBuffer α :=
  if h : slice.length ≤ d.head then
    ⟨overwrite d.buffer (d.head - slice.length) slice, d.head - slice.length, by
      have hle := d.head_le
      rw [length_overwrite (by omega)]
      omega⟩
  else
    let shift := slice.length - d.head
    ⟨overwrite ((d.buffer ++ List.replicate shift default).rotateRight shift) 0 slice, 0, Nat.zero_le _⟩

theorem asRef_withCapacity [Inhabited α] (frontCapacity : Nat) :
    (withCapacity frontCapacity : DequeBuffer α).asRef = [] := by
  simp [withCapacity, asRef]

theorem length_asRef (d : DequeBuffer α) : d.asRef.length = d.len := by
  rw [asRef, List.length_drop, len]

theorem asRef_extend (d : DequeBuffer α) (xs : List α) : (d.extend xs).asRef = d.asRef ++ xs := by
  rw [asRef, extend, List.drop_append_of_le_length d.head_le, asRef]

theorem asRef_replace (d : DequeBuffer α) (xs : List α) : (d.replace xs).asRef = xs :=
  List.drop_left' (by simp [replace, d.head_le])

theorem rotateRight_append (a b : List α) : (a ++ b).rotateRight b.length = b ++ a := by
  have hlen : (a ++ b).length = a.length + b.length := List.length_append
  rw [List.rotateRight]
  simp only [hlen]
  split
  next hshort =>
    rcases Nat.eq_zero_or_pos a.length with ha | ha
    · rw [List.length_eq_zero_iff.mp ha, List.nil_append, List.append_nil]
    · rw [List.length_eq_zero_iff.mp (show b.length = 0 by omega), List.nil_append, List.append_nil]
  next =>
    rcases Nat.eq_zero_or_pos a.length with ha | ha
    · rw [List.length_eq_zero_iff.mp ha]
      simp
    · rw [Nat.mod_eq_of_lt (by omega), Nat.add_sub_cancel, List.drop_left, List.take_left]

/-- What was there stays, behind what is put in front of it. -/
theorem asRef_extendFront [Inhabited α] (d : DequeBuffer α) (slice : List α) :
    (d.extendFront slice).asRef = slice ++ d.asRef := by
  have hle := d.head_le
  rw [extendFront]
  split
  next h =>
    have htake : (d.buffer.take (d.head - slice.length)).length = d.head - slice.length := by
      rw [List.length_take]
      omega
    simp only [asRef, overwrite]
    rw [List.drop_left' htake, Nat.sub_add_cancel h]
  next h =>
    have hrotate := rotateRight_append d.buffer (List.replicate (slice.length - d.head) default)
    rw [List.length_replicate] at hrotate
    simp only [asRef, overwrite, hrotate, List.take_zero, List.drop_zero, List.nil_append, Nat.zero_add]
    rw [List.drop_append, List.length_replicate, List.drop_eq_nil_of_le (by simp), List.nil_append]
    congr 2
    omega

theorem length_buffer_extendFront [Inhabited α] (d : DequeBuffer α) (slice : List α) :
    d.buffer.length ≤ (d.extendFront slice).buffer.length := by
  have hle := d.head_le
  rw [extendFront]
  split
  next h => exact Nat.le_of_eq (length_overwrite (by omega)).symm
  next h =>
    have hrotate := rotateRight_append d.buffer (List.replicate (slice.length - d.head) default)
    rw [List.length_replicate] at hrotate
    simp only [hrotate]
    rw [length_overwrite (by simp; omega)]
    simp

end DequeBuffer
