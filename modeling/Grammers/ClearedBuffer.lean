import Grammers.DequeBuffer

/-- A deque buffer with the room at the front that clearing it gives back. -/
structure ClearedBuffer (α : Type) extends DequeBuffer α where
  defaultHead : Nat
  defaultHead_le : defaultHead ≤ buffer.length

namespace ClearedBuffer

/-- Elements written in place: as many as there were. -/
def InPlace (α : Type) : Type := { f : List α → List α // ∀ xs, (f xs).length = xs.length }

variable {α : Type}

def isEmpty (d : ClearedBuffer α) : Bool := d.head == d.buffer.length

theorem isEmpty_eq (d : ClearedBuffer α) : d.isEmpty = d.asRef.isEmpty := by
  have hle := d.head_le
  rw [Bool.eq_iff_iff, isEmpty, beq_iff_eq, DequeBuffer.asRef, List.isEmpty_iff,
    List.drop_eq_nil_iff]
  omega

variable [Inhabited α]

def withCapacity (frontCapacity : Nat) : ClearedBuffer α where
  toDequeBuffer := .withCapacity frontCapacity
  defaultHead := frontCapacity
  defaultHead_le := by simp [DequeBuffer.withCapacity]

def extend (d : ClearedBuffer α) (xs : List α) : ClearedBuffer α where
  toDequeBuffer := d.toDequeBuffer.extend xs
  defaultHead := d.defaultHead
  defaultHead_le := by
    simp only [DequeBuffer.extend, List.length_append]
    exact Nat.le_add_right_of_le d.defaultHead_le

def push (d : ClearedBuffer α) (x : α) : ClearedBuffer α := d.extend [x]

def extendFront (d : ClearedBuffer α) (slice : List α) : ClearedBuffer α where
  toDequeBuffer := d.toDequeBuffer.extendFront slice
  defaultHead := d.defaultHead
  defaultHead_le := Nat.le_trans d.defaultHead_le (d.length_buffer_extendFront slice)

theorem defaultHead_le_mutate (d : ClearedBuffer α) (f : InPlace α) :
    d.defaultHead ≤ (d.replace (f.1 d.asRef)).buffer.length := by
  have hhead := d.head_le
  have hdefault := d.defaultHead_le
  simp only [DequeBuffer.replace, List.length_append, List.length_take, f.2,
    DequeBuffer.length_asRef, DequeBuffer.len]
  omega

def mutate (d : ClearedBuffer α) (f : InPlace α) : ClearedBuffer α where
  toDequeBuffer := d.replace (f.1 d.asRef)
  defaultHead := d.defaultHead
  defaultHead_le := d.defaultHead_le_mutate f

/-- The buffer is cut to the room at the front, and what is left of it is blanked. -/
def clear (d : ClearedBuffer α) : ClearedBuffer α where
  buffer := (d.buffer.take d.defaultHead).map fun _ => default
  head := d.defaultHead
  head_le := by simp [d.defaultHead_le]
  defaultHead := d.defaultHead
  defaultHead_le := by simp [d.defaultHead_le]

inductive Op (α : Type) where
  | extend (xs : List α)
  | push (x : α)
  | extendFront (slice : List α)
  | mutate (f : InPlace α)
  | clear

def apply (d : ClearedBuffer α) : Op α → ClearedBuffer α
  | .extend xs => d.extend xs
  | .push x => d.push x
  | .extendFront slice => d.extendFront slice
  | .mutate f => d.mutate f
  | .clear => d.clear

/-- The operation on a plain list. -/
def Op.onList (xs : List α) : Op α → List α
  | .extend ys => xs ++ ys
  | .push x => xs ++ [x]
  | .extendFront slice => slice ++ xs
  | .mutate f => f.1 xs
  | .clear => []

theorem clear_eq (d : ClearedBuffer α) : d.clear = withCapacity d.defaultHead := by
  have hbuffer : (d.buffer.take d.defaultHead).map (fun _ => default) =
      List.replicate d.defaultHead (default : α) := by
    rw [List.map_const', List.length_take, Nat.min_eq_left d.defaultHead_le]
  simp only [clear, withCapacity, DequeBuffer.withCapacity, hbuffer]

theorem defaultHead_apply (d : ClearedBuffer α) (op : Op α) :
    (d.apply op).defaultHead = d.defaultHead := by
  cases op <;> rfl

theorem asRef_apply (d : ClearedBuffer α) (op : Op α) :
    (d.apply op).asRef = op.onList d.asRef := by
  cases op with
  | extend xs => exact d.asRef_extend xs
  | push x => exact d.asRef_extend [x]
  | extendFront slice => exact d.asRef_extendFront slice
  | mutate f => exact d.asRef_replace _
  | clear =>
    rw [apply, clear_eq]
    exact DequeBuffer.asRef_withCapacity d.defaultHead

theorem foldl_apply (ops : List (Op α)) (d : ClearedBuffer α) :
    (ops.foldl apply d).asRef = ops.foldl Op.onList d.asRef ∧
      (ops.foldl apply d).defaultHead = d.defaultHead := by
  induction ops generalizing d with
  | nil => exact ⟨rfl, rfl⟩
  | cons op ops ih =>
    obtain ⟨href, hdefault⟩ := ih (d.apply op)
    rw [asRef_apply] at href
    exact ⟨href, hdefault.trans (defaultHead_apply d op)⟩

/-- After any operations the buffer holds the list that they make, and clearing it gives the buffer
that it was in the beginning. -/
theorem holds_list (frontCapacity : Nat) (ops : List (Op α)) :
    let d := ops.foldl apply (withCapacity frontCapacity)
    let xs := ops.foldl Op.onList []
    d.asRef = xs ∧ d.len = xs.length ∧ d.isEmpty = xs.isEmpty ∧ d.head ≤ d.buffer.length ∧
      d.clear = withCapacity frontCapacity ∧ d.clear.head = frontCapacity := by
  intro d xs
  obtain ⟨href, hdefault⟩ := foldl_apply ops (withCapacity frontCapacity)
  have hasRef : d.asRef = xs := by
    rw [href]
    exact congrArg (ops.foldl Op.onList) (DequeBuffer.asRef_withCapacity frontCapacity)
  have hclear : d.clear = withCapacity frontCapacity := by
    rw [clear_eq, hdefault]
    rfl
  refine ⟨hasRef, ?_, ?_, d.head_le, hclear, ?_⟩
  · rw [← DequeBuffer.length_asRef, hasRef]
  · rw [isEmpty_eq, hasRef]
  · rw [hclear]
    rfl

end ClearedBuffer
