import Grammers.BigEndian

namespace LittleEndian

/-- The lowest bytes of a number, least significant first. -/
def toBytes (width n : Nat) : List UInt8 := (BigEndian.toBytes width n).reverse

def ofBytes (bs : List UInt8) : Nat := BigEndian.ofBytes bs.reverse

@[simp]
theorem length_toBytes (width n : Nat) : (toBytes width n).length = width := by
  simp [toBytes]

theorem toBytes_succ (width n : Nat) :
    toBytes (width + 1) n = UInt8.ofNat n :: toBytes width (n / 256) := by
  simp [toBytes, BigEndian.toBytes_succ_append]

@[simp]
theorem ofBytes_toBytes (width n : Nat) : ofBytes (toBytes width n) = n % 256 ^ width := by
  simp [toBytes, ofBytes, BigEndian.ofBytes_toBytes]

theorem ofBytes_lt (bs : List UInt8) : ofBytes bs < 256 ^ bs.length := by
  simpa [ofBytes] using BigEndian.ofBytes_lt bs.reverse

theorem toBytes_ofBytes (bs : List UInt8) : toBytes bs.length (ofBytes bs) = bs := by
  have h := BigEndian.toBytes_ofBytes bs.reverse
  rw [List.length_reverse] at h
  rw [toBytes, ofBytes, h, List.reverse_reverse]

theorem ofBytes_append (low high : List UInt8) :
    ofBytes (low ++ high) = ofBytes low + 256 ^ low.length * ofBytes high := by
  simp [ofBytes, BigEndian.ofBytes_append]
  ring

end LittleEndian
