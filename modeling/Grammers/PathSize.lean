import Grammers.Text
import Mathlib.Tactic.IntervalCases

namespace Grammers

namespace PathSize

def lookup : Text :=
  "AACAAAAHAAALMAAAQASTAVAAAZaacaaaahaaalmaaaqastava.az0123456789-,".toList

theorem length_lookup : lookup.length = 64 := by decide

theorem index_lt {num : UInt8} (h : 128 + 64 ≤ num) :
    (num - 128 - 64).toNat < lookup.length := by
  have hle : 192 ≤ num.toNat := UInt8.le_iff_toNat_le.mp h
  have hlt := num.toNat_lt
  rw [length_lookup, UInt8.toNat_sub, UInt8.toNat_sub]
  simp only [UInt8.reduceToNat]
  omega

/-- What stands before a number: its range says whether it is negative or starts a pair. -/
def sign (num : UInt8) : Text :=
  if 128 ≤ num then [','] else if 64 ≤ num then ['-'] else []

/-- What is pushed for a byte. -/
def piece (num : UInt8) : Text :=
  if h : 128 + 64 ≤ num then [lookup.get ⟨_, index_lt h⟩]
  else sign num ++ [Char.ofNat (num &&& 63).toNat]

def path (bytes : List UInt8) : Text := 'M' :: bytes.flatMap piece ++ ['z']

def document (path : Text) : Text :=
  "<?xml version=\"1.0\" encoding=\"utf-8\"?>\n<svg version=\"1.1\" ".toList ++
    "xmlns=\"http://www.w3.org/2000/svg\" xmlns:xlink=\"http://www.w3.org/1999/xlink\"\n".toList ++
    "viewBox=\"0 0 512 512\" xml:space=\"preserve\">\n<path d=\"".toList ++
    path ++ "\"/>\n</svg>".toList

def data (bytes : List UInt8) : ByteArray := (String.ofList (document (path bytes))).toUTF8

/-- What the algorithm for these thumbnails says for a byte. -/
def command (num : UInt8) : Text :=
  if h : 128 + 64 ≤ num then [lookup.get ⟨_, index_lt h⟩]
  else sign num ++ Nat.toDigits 10 (num &&& 63).toNat

def outline (bytes : List UInt8) : Text := 'M' :: bytes.flatMap command ++ ['z']

theorem lowBits_lt (num : UInt8) : (num &&& 63).toNat < 64 := by
  have h : (num &&& 63).toNat = num.toNat &&& 63 := UInt8.toNat_and num 63
  rw [h]
  exact Nat.lt_of_le_of_lt Nat.and_le_right (by omega)

theorem char_ne_digits : ∀ n < 64, [Char.ofNat n] ≠ Nat.toDigits 10 n := by
  intro n hn
  interval_cases n <;> decide

theorem piece_eq_command {num : UInt8} (h : 128 + 64 ≤ num) : piece num = command num := by
  rw [piece, command, dif_pos h, dif_pos h]

theorem piece_ne_command {num : UInt8} (h : ¬ 128 + 64 ≤ num) : piece num ≠ command num := by
  rw [piece, command, dif_neg h, dif_neg h]
  intro heq
  exact char_ne_digits _ (lowBits_lt num) (List.append_cancel_left heq)

theorem length_piece_le (num : UInt8) : (piece num).length ≤ (command num).length := by
  by_cases h : 128 + 64 ≤ num
  · rw [piece_eq_command h]
  · rw [piece, command, dif_neg h, dif_neg h, List.length_append, List.length_append]
    exact Nat.add_le_add_left Nat.length_toDigits_pos _

theorem length_pieces_le (bytes : List UInt8) :
    (bytes.flatMap piece).length ≤ (bytes.flatMap command).length := by
  induction bytes with
  | nil => exact Nat.le_refl _
  | cons num bytes ih =>
    rw [List.flatMap_cons, List.flatMap_cons, List.length_append, List.length_append]
    exact Nat.add_le_add (length_piece_le num) ih

/-- No byte makes up for another: the commands are longer or say something else. -/
theorem pieces_eq_iff (bytes : List UInt8) :
    bytes.flatMap piece = bytes.flatMap command ↔ ∀ num ∈ bytes, 128 + 64 ≤ num := by
  induction bytes with
  | nil => simp
  | cons num bytes ih =>
    rw [List.flatMap_cons, List.flatMap_cons, List.forall_mem_cons, ← ih]
    constructor
    · intro h
      have hlen := congrArg List.length h
      rw [List.length_append, List.length_append] at hlen
      have hhead := length_piece_le num
      have htail := length_pieces_le bytes
      obtain ⟨hpiece, hpieces⟩ := List.append_inj h (by omega)
      exact ⟨Classical.byContradiction fun hlt => piece_ne_command hlt hpiece, hpieces⟩
    · rintro ⟨hnum, hpieces⟩
      rw [piece_eq_command hnum, hpieces]

theorem path_eq_outline_iff (bytes : List UInt8) :
    path bytes = outline bytes ↔ ∀ num ∈ bytes, 128 + 64 ≤ num := by
  rw [← pieces_eq_iff, path, outline, List.append_cancel_right_eq, List.cons_inj_right]

theorem piece_subset {num : UInt8} (h : 128 + 64 ≤ num) : ∀ c ∈ piece num, c ∈ lookup := by
  intro c hc
  rw [piece, dif_pos h, List.mem_singleton] at hc
  rw [hc]
  exact List.get_mem _ _

theorem mem_path {bytes : List UInt8} {c : Char} :
    c ∈ path bytes ↔ c = 'M' ∨ (∃ num ∈ bytes, c ∈ piece num) ∨ c = 'z' := by
  rw [path, List.mem_append, List.mem_cons, List.mem_singleton, List.mem_flatMap, or_assoc]

/-- The path follows the algorithm, and stays within the letters, digits and signs of its table,
just when every byte is a letter of the table. -/
theorem path_wellFormed_iff (bytes : List UInt8) :
    (path bytes = outline bytes ∧ ∀ c ∈ path bytes, c ∈ lookup) ↔ ∀ num ∈ bytes, 128 + 64 ≤ num := by
  rw [path_eq_outline_iff, and_iff_left_iff_imp]
  intro h c hc
  rcases mem_path.mp hc with rfl | ⟨num, hnum, hc⟩ | rfl
  · decide
  · exact piece_subset (h num hnum) c hc
  · decide

/-- A byte that closes the attribute that the path is in. -/
theorem quote_in_path : path [34] = ['M', '"', 'z'] ∧
    ¬ (path [34] = outline [34] ∧ ∀ c ∈ path [34], c ∈ lookup) := by
  refine ⟨by decide, fun h => ?_⟩
  have hne : path [34] ≠ outline [34] := by decide
  exact hne h.1

end PathSize

end Grammers
