import Grammers.Transport
import Grammers.Incremental

namespace Grammers

open Checked Incremental

/-! The same frames without panics and with exact lengths. -/

theorem toInt_ofNat_le (n : Nat) : (Int32.ofNat n).toInt ≤ n := by
  have hsize : Int32.size = 2 ^ 32 := rfl
  rw [Int32.toInt_ofNat', hsize, Int.bmod_def]
  split <;> omega

theorem asUsize_eq {x : Int32} (h : 0 ≤ x.toInt) : asUsize x = x.toInt.toNat := by
  have hle : 0 ≤ x.toInt64 := by
    rw [Int64.le_iff_toInt_le, Int32.toInt_toInt64]
    exact h
  have hnat := Int64.toNat_toBitVec_of_le hle
  rw [Int64.toNat_toBitVec] at hnat
  rw [asUsize, hnat, Int64.toNatClampNeg, Int32.toInt_toInt64]

theorem readI32_ok {b : Bytes} {lo hi : Nat} (hhi : hi = lo + 4) (h : hi ≤ b.length) :
    readI32 b lo hi = .ok (Int32.ofNat (LittleEndian.ofBytes ((b.drop lo).take 4))) := by
  rw [readI32, word_ok hhi h]
  rfl

theorem readU32_ok {b : Bytes} {lo hi : Nat} (hhi : hi = lo + 4) (h : hi ≤ b.length) :
    readU32 b lo hi = .ok (UInt32.ofNat (LittleEndian.ofBytes ((b.drop lo).take 4))) := by
  rw [readU32, word_ok hhi h]
  rfl

/-- A call that has not panicked, and asks for more where nothing is decided. -/
def awaited : Option (Except TransportError UnpackedOffset) →
    Except (Fault TransportError) UnpackedOffset
  | none => .error (.error .missingBytes)
  | some (.error e) => .error (.error e)
  | some (.ok offset) => .ok offset

namespace Full

variable (crc32 : Bytes → UInt32) (t : Full)

def check (frame : Bytes) : Except TransportError UnpackedOffset :=
  let seq := Int32.ofNat (LittleEndian.ofBytes ((frame.drop 4).take 4))
  let crc := UInt32.ofNat (LittleEndian.ofBytes (frame.drop (frame.length - 4)))
  let validCrc := crc32 (frame.take (frame.length - 4))
  if seq ≠ t.recvSeq then .error (.badSeq t.recvSeq seq)
  else if crc ≠ validCrc then .error (.badCrc validCrc crc)
  else .ok ⟨8, frame.length - 4, frame.length⟩

def lengthOf (head : Bytes) : Int32 := Int32.ofNat (LittleEndian.ofBytes head)

def reader : Reader UInt8 (Except TransportError UnpackedOffset) :=
  .need 4 fun head =>
    if lengthOf head < 12 then
      .done (.error (if lengthOf head < 0 then .badStatus (unsignedAbs (lengthOf head))
        else .badLen (lengthOf head)))
    else .need (lengthOf head).toInt.toNat fun frame => .done (t.check crc32 frame)

variable {crc32 t}

/-- The truncated length of the buffer is below that of its frame only where the frame is
incomplete. -/
def Measured (b : Bytes) : Prop :=
  12 ≤ (lengthOf (b.take 4)).toInt → (lengthOf (b.take 4)).toInt ≤ b.length →
    lengthOf (b.take 4) ≤ Int32.ofNat b.length

theorem measured_of_lt {b : Bytes} (h : b.length < 2 ^ 31) : Measured b := by
  intro _ hle
  rw [Int32.le_iff_toInt_le, Int32.toInt_ofNat_of_lt h]
  exact hle

theorem read_eq_awaited_of_le {b : Bytes} (h12 : 12 ≤ (lengthOf (b.take 4)).toInt)
    (hle : (lengthOf (b.take 4)).toInt ≤ b.length)
    (hmeasured : lengthOf (b.take 4) ≤ Int32.ofNat b.length) :
    t.read crc32 b = awaited (some (t.check crc32 (b.take (lengthOf (b.take 4)).toInt.toNat))) := by
  obtain ⟨len, hlen⟩ : ∃ len, len = lengthOf (b.take 4) := ⟨_, rfl⟩
  obtain ⟨n, hn⟩ : ∃ n, n = len.toInt.toNat := ⟨_, rfl⟩
  rw [← hlen] at h12 hle hmeasured ⊢
  have hnlen : n ≤ b.length := by omega
  have h4 : ¬b.length < 4 := by omega
  have hlt12 : ¬len < 12 := by
    rw [Int32.lt_iff_toInt_lt]
    show ¬len.toInt < 12
    omega
  have hmiss : ¬Int32.ofNat b.length < len := Int32.not_lt.mpr hmeasured
  have husize : asUsize len = n := by rw [asUsize_eq (by omega), hn]
  have hhead : readI32 b 0 4 = .ok len := by
    rw [readI32_ok rfl (by omega), hlen]
    rfl
  have hlast : (b.take n).drop (n - 4) = (b.drop (n - 4)).take 4 := by
    rw [List.drop_take]
    congr 1
    omega
  have hseq : ((b.take n).drop 4).take 4 = (b.drop 4).take 4 := by
    rw [List.drop_take, List.take_take]
    congr 1
    omega
  have hlength : (b.take n).length = n := by simp; omega
  have hcrc : (b.take n).take (n - 4) = b.take (n - 4) := by
    rw [List.take_take]
    congr 1
    omega
  have hsub : sub (ε := TransportError) n 4 = .ok (n - 4) := sub_ok (by omega)
  have hslice : slice (ε := TransportError) b 0 (n - 4) = .ok (b.take (n - 4)) := by
    rw [slice_ok (by omega) (by omega)]
    rfl
  rw [← hn]
  simp only [read, h4, hhead, hlt12, hmiss, husize, hsub, hslice, ↓reduceIte, bind, Except.bind,
    readI32_ok rfl (show 8 ≤ b.length by omega), readU32_ok (show n = n - 4 + 4 by omega) hnlen]
  simp only [check, hlength, hseq, hlast, hcrc]
  split
  · rfl
  · split <;> rfl

theorem read_eq (b : Bytes) (h : Measured b) :
    t.read crc32 b = awaited ((t.reader crc32).run b) := by
  rcases Nat.lt_or_ge b.length 4 with h4 | h4
  · rw [reader, Reader.run_need_of_lt _ h4]
    simp [read, h4, awaited]
  · rw [reader, Reader.run_need_of_le _ h4]
    have hhead : readI32 b 0 4 = .ok (lengthOf (b.take 4)) := readI32_ok rfl h4
    by_cases h12 : lengthOf (b.take 4) < 12
    · simp only [read, Nat.not_lt.mpr h4, hhead, h12, ↓reduceIte, bind, Except.bind,
        Reader.run_done, awaited]
      split <;> rfl
    · have h12' : 12 ≤ (lengthOf (b.take 4)).toInt := by
        rw [Int32.lt_iff_toInt_lt] at h12
        exact Int.not_lt.mp h12
      simp only [h12, ↓reduceIte]
      by_cases hle : (lengthOf (b.take 4)).toInt ≤ b.length
      · rw [Reader.run_need_of_le _ (by omega), Reader.run_done]
        exact read_eq_awaited_of_le h12' hle (h h12' hle)
      · rw [Reader.run_need_of_lt _ (by omega)]
        have hmiss : Int32.ofNat b.length < lengthOf (b.take 4) := by
          rw [Int32.lt_iff_toInt_lt]
          have := toInt_ofNat_le b.length
          omega
        simp [read, Nat.not_lt.mpr h4, hhead, h12, hmiss, bind, Except.bind, awaited]

/-- Where the truncated length is too short, the frame is taken as incomplete. -/
theorem read_of_not_measured {b : Bytes} (h : ¬Measured b) :
    t.read crc32 b = .error (.error .missingBytes) := by
  simp only [Measured, not_forall, Int32.not_le] at h
  obtain ⟨h12, hle, hlt⟩ := h
  have h4 : 4 ≤ b.length := by omega
  have hhead : readI32 b 0 4 = .ok (lengthOf (b.take 4)) := readI32_ok rfl h4
  have hnot : ¬lengthOf (b.take 4) < 12 := by
    rw [Int32.lt_iff_toInt_lt]
    exact Int.not_lt.mpr h12
  simp only [read, Nat.not_lt.mpr h4, hhead, hnot, hlt, bind, Except.bind, ↓reduceIte]

end Full

namespace Abridged

/-- A lone negative number is an error of the server. -/
def check (headerLen words : Nat) (frame : Bytes) : Except TransportError UnpackedOffset :=
  let data := Int32.ofNat (LittleEndian.ofBytes ((frame.drop 1).take 4))
  if (headerLen = 1 ∧ words * 4 = 4) ∧ data < 0 then .error (.badStatus (unsignedAbs data))
  else .ok ⟨headerLen, headerLen + words * 4, headerLen + words * 4⟩

def body (headerLen words : Nat) : Reader UInt8 (Except TransportError UnpackedOffset) :=
  .need (headerLen + words * 4) fun frame => .done (check headerLen words frame)

def wordsOf (head : Bytes) : Nat := LittleEndian.ofBytes (head.drop 1)

def reader : Reader UInt8 (Except TransportError UnpackedOffset) :=
  .need 1 fun head =>
    if head.headD 0 < 127 then body 1 (head.headD 0).toNat
    else .need 4 fun head => body 4 (wordsOf head)

theorem read_of_header {b : Bytes} {headerLen words : Nat}
    (h : readHeader b = .ok (headerLen, words)) :
    read b = awaited ((body headerLen words).run b) := by
  rcases Nat.lt_or_ge b.length (headerLen + words * 4) with hlt | hge
  · rw [body, Reader.run_need_of_lt _ hlt]
    simp [read, h, hlt, bind, Except.bind, awaited]
  · rw [body, Reader.run_need_of_le _ hge, Reader.run_done]
    simp only [read, h, Nat.not_lt.mpr hge, bind, Except.bind, ↓reduceIte, check]
    by_cases hstatus : headerLen = 1 ∧ words * 4 = 4
    · obtain ⟨rfl, hwords⟩ := hstatus
      have hdata : ((b.take (1 + words * 4)).drop 1).take 4 = (b.drop 1).take 4 := by
        rw [List.drop_take, List.take_take]
        congr 1
        omega
      simp only [hwords, and_self, ↓reduceIte, true_and, readI32_ok rfl (show 5 ≤ b.length by omega)]
      rw [hwords] at hdata
      rw [hdata]
      split <;> rfl
    · simp only [hstatus, ↓reduceIte, false_and]
      rfl

theorem ofBytes_three (low middle high : UInt8) :
    LittleEndian.ofBytes [low, middle, high, 0] = LittleEndian.ofBytes [low, middle, high] := by
  simp [LittleEndian.ofBytes, BigEndian.ofBytes]

theorem read_eq (b : Bytes) : read b = awaited (reader.run b) := by
  match b with
  | [] => rfl
  | first :: rest =>
    have hindex : index (ε := TransportError) (first :: rest) 0 = .ok first := rfl
    by_cases hfirst : first < 127
    · have hheader : readHeader (first :: rest) = .ok (1, first.toNat) := by
        simp [readHeader, hindex, hfirst, bind, Except.bind]
      rw [read_of_header hheader, reader, Reader.run_need_of_le _ (by simp)]
      simp [hfirst]
    · rw [reader, Reader.run_need_of_le _ (by simp)]
      simp only [List.take_succ_cons, List.headD_cons, hfirst, ↓reduceIte]
      match rest with
      | [] | [_] | [_, _] =>
        rw [Reader.run_need_of_lt _ (by simp)]
        simp [read, readHeader, hindex, hfirst, bind, Except.bind, awaited]
      | low :: middle :: high :: rest =>
        have hheader : readHeader (first :: low :: middle :: high :: rest) =
            .ok (4, LittleEndian.ofBytes [low, middle, high]) := by
          have hlen : ¬(first :: low :: middle :: high :: rest).length < 4 := by simp
          simp only [readHeader, index, hfirst, hlen, bind, Except.bind, ← ofBytes_three,
            List.isEmpty_cons, List.getElem?_cons_zero, List.getElem?_cons_succ, ↓reduceIte,
            Bool.false_eq_true]
        rw [read_of_header hheader, Reader.run_need_of_le _ (by simp)]
        simp only [List.take_succ_cons, List.take_zero, wordsOf, List.drop_succ_cons, List.drop_zero]

end Abridged

namespace Intermediate

def lengthOf (head : Bytes) : Int32 := Int32.ofNat (LittleEndian.ofBytes head)

def check (frame : Bytes) : Except TransportError UnpackedOffset :=
  if frame.length = 8 then
    .error (.badStatus (-Int32.ofNat (LittleEndian.ofBytes (frame.drop 4))).toUInt32)
  else .ok ⟨4, frame.length, frame.length⟩

def reader : Reader UInt8 (Except TransportError UnpackedOffset) :=
  .need 4 fun head =>
    if lengthOf head < 4 then .done (.error (.badLen (lengthOf head)))
    else .need (4 + (lengthOf head).toInt.toNat) fun frame => .done (check frame)

theorem read_eq (b : Bytes) : read b = awaited (reader.run b) := by
  rcases Nat.lt_or_ge b.length 4 with h4 | h4
  · rw [reader, Reader.run_need_of_lt _ h4]
    simp [read, h4, awaited]
  · rw [reader, Reader.run_need_of_le _ h4]
    have hhead : readI32 b 0 4 = .ok (lengthOf (b.take 4)) := readI32_ok rfl h4
    obtain ⟨len, hlen⟩ : ∃ len, len = lengthOf (b.take 4) := ⟨_, rfl⟩
    rw [← hlen] at hhead ⊢
    by_cases hbad : len < 4
    · simp [read, Nat.not_lt.mpr h4, hhead, hbad, bind, Except.bind, awaited]
    · have hlen4 : 4 ≤ len.toInt := by
        rw [Int32.lt_iff_toInt_lt] at hbad
        exact Int.not_lt.mp hbad
      have husize : asUsize len = len.toInt.toNat := asUsize_eq (by omega)
      obtain ⟨n, hn⟩ : ∃ n, n = len.toInt.toNat := ⟨_, rfl⟩
      rw [← hn] at husize ⊢
      simp only [read, Nat.not_lt.mpr h4, hhead, hbad, husize, bind, Except.bind, ↓reduceIte]
      rcases Nat.lt_or_ge b.length (4 + n) with hlt | hge
      · rw [Reader.run_need_of_lt _ hlt]
        simp [hlt, awaited]
      · have hlength : (b.take (4 + n)).length = 4 + n := by
          rw [List.length_take]
          omega
        rw [Reader.run_need_of_le _ hge, Reader.run_done, check, hlength]
        simp only [Nat.not_lt.mpr hge, ↓reduceIte]
        by_cases hfour : len = 4
        · obtain rfl : n = 4 := by rw [hn, hfour]; rfl
          have hdata : (b.take (4 + 4)).drop 4 = (b.drop 4).take 4 := by rw [List.drop_take]
          simp only [hfour, ↓reduceIte, readI32_ok rfl (show 8 ≤ b.length by omega), hdata]
          rfl
        · have hne : 4 + n ≠ 8 := by
            intro heq
            exact hfour (Int32.toInt_inj.mp (show len.toInt = 4 by omega))
          simp [hfour, hne, awaited]

end Intermediate

end Grammers
