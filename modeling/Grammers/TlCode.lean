import Grammers.TlPrimitives

namespace Grammers.Tl

open Checked CursorReader

variable {α : Type} {d : Nat}

/-! What each reader takes. -/

theorem code_readByte (x : UInt8) : Code readByte d eof [x] x := by
  constructor
  · intro pre rest
    have hlt : pre.length < (pre ++ ([x] ++ rest)).length := by simp
    have hindex : index (ε := TlError) (pre ++ ([x] ++ rest)) pre.length = .ok x := by
      simp [index]
    simp only [readByte, hlt, hindex, ↓reduceIte, List.length_singleton]
  · intro pre q hq hne
    have hnil : q = [] := by
      rcases List.prefix_cons_iff.mp hq with hnil | ⟨q', rfl, hq'⟩
      · exact hnil
      · rw [List.prefix_nil.mp hq'] at hne
        exact absurd rfl hne
    subst hnil
    exact ⟨⟨pre, pre.length, d⟩, by simp [readByte]⟩

theorem slice_middle (pre b rest : Bytes) :
    slice (ε := TlError) (pre ++ (b ++ rest)) pre.length (pre.length + b.length) = .ok b := by
  rw [slice_ok (by omega) (by simp), List.drop_left, Nat.add_sub_cancel_left, List.take_left]

theorem code_readSlice {b : Bytes} {n : Nat} (h : b.length = n) : Code (readSlice n) d eof b b := by
  subst h
  constructor
  · intro pre rest
    have hle : pre.length + b.length ≤ (pre ++ (b ++ rest)).length := by simp
    simp only [readSlice, hle, slice_middle, ↓reduceIte]
  · intro pre q hq hne
    have hlt : q.length < b.length := by
      refine lt_of_le_of_ne hq.length_le fun heq => hne (hq.eq_of_length heq)
    have hshort : ¬pre.length + b.length ≤ (pre ++ q).length := by simp; omega
    exact ⟨⟨pre ++ q, pre.length, d⟩, by simp only [readSlice, hshort, ↓reduceIte]⟩

theorem readExact_eq (len : Nat) : readExact len = readSlice len := by
  funext c
  by_cases h : c.pos + len ≤ c.buf.length
  · simp only [readExact, readSlice, h, gt_iff_lt, Nat.not_lt.mpr h, ↓reduceIte]
  · simp only [readExact, readSlice, h, gt_iff_lt, Nat.lt_of_not_le h, ↓reduceIte]

theorem code_readExact {b : Bytes} {n : Nat} (h : b.length = n) : Code (readExact n) d eof b b := by
  rw [readExact_eq]
  exact code_readSlice h

/-- A number of fixed width, read back from its bytes. -/
theorem code_word {width : Nat} {decode : Nat → α} {x : α} {n : Nat}
    (hlt : n < 256 ^ width) (h : decode n = x) :
    Code (do let buffer ← readExact width; pure (decode (LittleEndian.ofBytes buffer))) d eof
      (LittleEndian.toBytes width n) x := by
  have hread : Code (readExact width) d eof (LittleEndian.toBytes width n) _ :=
    code_readExact (by simp)
  have hmap : Code (do let buffer ← readExact width; pure (decode (LittleEndian.ofBytes buffer)))
      d eof (LittleEndian.toBytes width n ++ []) x :=
    hread.bind (by
      simp only [LittleEndian.ofBytes_toBytes, Nat.mod_eq_of_lt hlt, h]
      exact Code.pure x)
  rwa [List.append_nil] at hmap

theorem code_u32 (x : UInt32) : Code deserializeU32 d eof (serializeU32 x) x := by
  exact code_word x.toNat_lt UInt32.ofNat_toNat

theorem code_i32 (x : Int32) : Code deserializeI32 d eof (serializeI32 x) x := by
  refine code_word x.toUInt32.toNat_lt ?_
  rw [← UInt32.toInt32_ofNat', UInt32.ofNat_toNat,
    Int32.toInt32_toUInt32]

theorem code_i64 (x : Int64) : Code deserializeI64 d eof (serializeI64 x) x := by
  refine code_word x.toUInt64.toNat_lt ?_
  rw [← UInt64.toInt64_ofNat', UInt64.ofNat_toNat,
    Int64.toInt64_toUInt64]

theorem code_f64 (bits : UInt64) : Code deserializeF64 d eof (serializeF64 bits) bits := by
  exact code_word bits.toNat_lt UInt64.ofNat_toNat

theorem code_bool (b : Bool) : Code deserializeBool d eof (serializeBool b) b := by
  have hbind : Code deserializeBool d eof (serializeBool b ++ []) b := by
    refine (code_u32 _).bind ?_
    cases b <;> exact Code.pure _
  rwa [List.append_nil] at hbind

theorem code_lift {x : Except (Fault TlError) α} {v : α} (h : x = .ok v) :
    Code (lift x) d eof [] v := by
  subst h
  exact Code.pure v

/-- The three bytes of a long length. -/
theorem or_bytes {n : Nat} (h : n < 2 ^ 24) :
    (UInt8.ofNat (n &&& 0xff)).toNat ||| ((UInt8.ofNat ((n >>> 8) &&& 0xff)).toNat <<< 8) |||
      ((UInt8.ofNat ((n >>> 16) &&& 0xff)).toNat <<< 16) = n := by
  have hmask : ∀ m : Nat, (UInt8.ofNat (m &&& 0xff)).toNat = m % 256 := by
    intro m
    rw [UInt8.toNat_ofNat', show (0xff : Nat) = 2 ^ 8 - 1 by rfl, Nat.and_two_pow_sub_one_eq_mod]
    omega
  rw [hmask, hmask, hmask, Nat.or_comm (n % 256), ← Nat.shiftLeft_add_eq_or_of_lt (by omega),
    Nat.or_comm, ← Nat.shiftLeft_add_eq_or_of_lt]
  · simp only [Nat.shiftLeft_eq, Nat.shiftRight_eq_div_pow]
    omega
  · simp only [Nat.shiftLeft_eq, Nat.shiftRight_eq_div_pow]
    omega

theorem code_readLength {n : Nat} (h : n < 2 ^ 24) :
    Code readLength d eof (bytesHeader n) (n, (if n ≤ 253 then n + 1 else n) % 4) := by
  by_cases hshort : n ≤ 253
  · have hnat : (UInt8.ofNat n).toNat = n := UInt8.toNat_ofNat_of_lt' (by show n < 256; omega)
    have hne : UInt8.ofNat n ≠ 254 := by
      intro heq
      rw [heq] at hnat
      have : (254 : UInt8).toNat = 254 := rfl
      omega
    have hcode : Code readLength d eof ([UInt8.ofNat n] ++ []) (n, (n + 1) % 4) := by
      refine (code_readByte _).bind ?_
      rw [if_neg hne, hnat]
      exact Code.pure _
    rw [if_pos hshort, bytesHeader, if_pos hshort]
    rwa [List.append_nil] at hcode
  · rw [if_neg hshort, bytesHeader, if_neg hshort]
    have hcode : Code readLength d eof ([(254 : UInt8)] ++ ([UInt8.ofNat (n &&& 0xff),
        UInt8.ofNat ((n >>> 8) &&& 0xff), UInt8.ofNat ((n >>> 16) &&& 0xff)] ++
          ([] ++ ([] ++ ([] ++ []))))) (n, n % 4) := by
      refine (code_readByte 254).bind ?_
      rw [if_pos rfl]
      refine (code_readSlice (by rfl)).bind ?_
      refine (code_lift (by rfl)).bind ?_
      refine (code_lift (by rfl)).bind ?_
      refine (code_lift (by rfl)).bind ?_
      simp only [or_bytes h]
      exact Code.pure _
    exact hcode

theorem code_readBytes {b : Bytes} (h : b.length < 2 ^ 24) :
    Code readBytes d eof (serializeBytes b) b := by
  refine (code_readLength h).bind ((code_readSlice rfl).bind ?_)
  obtain ⟨len, hlen⟩ : ∃ len, len = if b.length ≤ 253 then b.length + 1 else b.length := ⟨_, rfl⟩
  rw [← hlen]
  by_cases hpad : len % 4 = 0
  · simp only [hpad, ne_eq, not_true_eq_false, ↓reduceIte]
    exact Code.pure b
  · have hmod : (4 - len % 4) % 4 = 4 - len % 4 := by omega
    have hbind : Code (do let _ ← readSlice (4 - len % 4); pure b) d eof
        (List.replicate (4 - len % 4) 0 ++ []) b :=
      (code_readSlice List.length_replicate).bind (Code.pure b)
    rw [List.append_nil] at hbind
    simp only [ne_eq, hpad, not_false_eq_true, ↓reduceIte, hmod]
    exact hbind

theorem deserializeBytes_eq : deserializeBytes = readBytes := rfl

theorem length_serializeBytes (b : Bytes) : (serializeBytes b).length % 4 = 0 := by
  by_cases h : b.length ≤ 253
  · simp only [serializeBytes, bytesHeader, h, ↓reduceIte, List.length_append, List.length_singleton,
      List.length_replicate]
    omega
  · simp only [serializeBytes, bytesHeader, h, ↓reduceIte, List.length_append, List.length_cons,
      List.length_nil, List.length_replicate]
    omega

/-! Strings. -/

theorem asBytes_eq (s : String) : asBytes s = s.toList.flatMap String.utf8EncodeChar := by
  rw [asBytes, ← String.utf8Encode_toList, List.utf8Encode]
  simp

theorem lossyChars_encoded (cs : List Char) {fuel : Nat} (h : cs.length ≤ fuel) :
    lossyChars fuel (cs.flatMap String.utf8EncodeChar) = cs := by
  induction cs generalizing fuel with
  | nil => cases fuel <;> rfl
  | cons c cs ih =>
    obtain ⟨fuel, rfl⟩ := Nat.exists_eq_succ_of_ne_zero (by simp at h; omega : fuel ≠ 0)
    have hdecode : ((c :: cs).flatMap String.utf8EncodeChar).toByteArray.utf8DecodeChar? 0 =
        some c := by
      rw [List.flatMap_cons, List.toByteArray_append]
      exact ByteArray.utf8DecodeChar?_utf8EncodeChar_append
    have hdrop : ((c :: cs).flatMap String.utf8EncodeChar).drop c.utf8Size =
        cs.flatMap String.utf8EncodeChar := by
      rw [List.flatMap_cons, List.drop_left' (String.length_utf8EncodeChar c)]
    have hne : (c :: cs).flatMap String.utf8EncodeChar ≠ [] := by
      intro hnil
      have hlen := congrArg List.length hnil
      have hpos := c.utf8Size_pos
      simp only [List.flatMap_cons, List.length_append, String.length_utf8EncodeChar,
        List.length_nil] at hlen
      omega
    have hrest := ih (show cs.length ≤ fuel by simpa using h)
    cases hb : (c :: cs).flatMap String.utf8EncodeChar with
    | nil => exact absurd hb hne
    | cons x xs =>
      rw [hb] at hdecode hdrop
      simp only [lossyChars, hdecode, hdrop, hrest]

theorem length_le_asBytes (cs : List Char) :
    cs.length ≤ (cs.flatMap String.utf8EncodeChar).length := by
  induction cs with
  | nil => simp
  | cons c cs ih =>
    have hpos := c.utf8Size_pos
    simp only [List.flatMap_cons, List.length_append, String.length_utf8EncodeChar, List.length_cons]
    omega

/-- Nothing of a valid string is replaced. -/
theorem fromUtf8Lossy_asBytes (s : String) : fromUtf8Lossy (asBytes s) = s := by
  rw [fromUtf8Lossy, asBytes_eq, lossyChars_encoded _ (length_le_asBytes _), String.ofList_toList]

theorem code_string {s : String} (h : (asBytes s).length < 2 ^ 24) :
    Code deserializeString d eof (serializeBytes (asBytes s)) s := by
  have hcode : Code deserializeString d eof (serializeBytes (asBytes s) ++ []) s := by
    refine (code_readBytes h).bind ?_
    rw [fromUtf8Lossy_asBytes]
    exact Code.pure s
  rwa [List.append_nil] at hcode

/-! Vectors. -/

theorem serializeI32_ofNat (n : Nat) : serializeI32 (Int32.ofNat n) = serializeU32 (UInt32.ofNat n) := by
  rw [serializeI32, serializeU32, ← UInt32.toInt32_ofNat', UInt32.toUInt32_toInt32]

/-- Reading the first element apart is reading them all. -/
theorem deserializeVector_eq (deserialize : Read α) :
    deserializeVector deserialize =
      deserializeU32 >>= fun len => readMany deserialize len.toNat := by
  unfold deserializeVector
  congr 1
  funext len
  split
  next hzero => subst hzero; rfl
  next hne =>
    have hpos : len.toNat ≠ 0 := fun h => hne (UInt32.toNat_inj.mp h)
    obtain ⟨n, hn⟩ := Nat.exists_eq_succ_of_ne_zero hpos
    rw [hn]
    rfl

theorem code_rawVec {serialize : α → Bytes} {deserialize : Read α} {vs : List α}
    (h : ∀ v ∈ vs, Code deserialize d eof (serialize v) v) (hlen : vs.length < 2 ^ 31) :
    Code (deserializeVector deserialize) d eof (serializeRawVec serialize vs) vs := by
  rw [deserializeVector_eq, serializeRawVec, serializeI32_ofNat]
  refine (code_u32 _).bind ?_
  rw [UInt32.toNat_ofNat_of_lt' (by show _ < 2 ^ 32; omega)]
  exact Code.many h

theorem code_vec {serialize : α → Bytes} {deserialize : Read α} {vs : List α}
    (h : ∀ v ∈ vs, Code deserialize d eof (serialize v) v) (hlen : vs.length < 2 ^ 31) :
    Code (deserializeVec deserialize) d eof (serializeVec serialize vs) vs := by
  refine (code_u32 _).bind ?_
  rw [if_neg (by simp)]
  exact code_rawVec h hlen

/-! On any input. -/

/-- What a reader of the wire format never does. -/
abbrev Safe (r : Read α) : Prop := Bounded (· ≠ Fault.panic) r

theorem safe_readByte : Safe readByte := by
  constructor
  · intro c v c' hc h
    simp only [readByte] at h
    split at h
    next hlt =>
      rw [index_ok hlt] at h
      obtain ⟨-, rfl⟩ := EStateM.Result.ok.inj h
      exact ⟨rfl, Nat.le_succ _, hlt, rfl⟩
    next => cases h
  · intro c e c' hc h
    simp only [readByte] at h
    split at h
    next hlt =>
      rw [index_ok hlt] at h
      cases h
    next =>
      obtain ⟨rfl, rfl⟩ := EStateM.Result.error.inj h
      exact ⟨by simp [eof], rfl, le_rfl, hc, rfl⟩

theorem safe_readSlice (n : Nat) : Safe (readSlice n) := by
  constructor
  · intro c v c' hc h
    simp only [readSlice] at h
    split at h
    next hle =>
      rw [slice_ok (Nat.le_add_right _ _) hle] at h
      obtain ⟨-, rfl⟩ := EStateM.Result.ok.inj h
      exact ⟨rfl, Nat.le_add_right _ _, hle, rfl⟩
    next => cases h
  · intro c e c' hc h
    simp only [readSlice] at h
    split at h
    next hle =>
      rw [slice_ok (Nat.le_add_right _ _) hle] at h
      cases h
    next =>
      obtain ⟨rfl, rfl⟩ := EStateM.Result.error.inj h
      exact ⟨by simp [eof], rfl, le_rfl, hc, rfl⟩

theorem safe_readExact (n : Nat) : Safe (readExact n) := by
  rw [readExact_eq]
  exact safe_readSlice n

theorem safe_readToEnd : Safe readToEnd := by
  constructor
  · intro c v c' hc h
    simp only [readToEnd, slice_ok hc le_rfl] at h
    obtain ⟨-, rfl⟩ := EStateM.Result.ok.inj h
    exact ⟨rfl, hc, le_rfl, rfl⟩
  · intro c e c' hc h
    simp only [readToEnd, slice_ok hc le_rfl] at h
    cases h

/-- The three bytes of a long length are there once they have been read. -/
theorem length_of_readSlice {n : Nat} {c c' : Cursor Nat} {b : Bytes}
    (h : readSlice n c = .ok b c') : b.length = n := by
  simp only [readSlice] at h
  split at h
  next hle =>
    rw [slice_ok (Nat.le_add_right _ _) hle] at h
    obtain ⟨rfl, -⟩ := EStateM.Result.ok.inj h
    simp
    omega
  next => cases h

theorem safe_lift_index {b : Bytes} {i : Nat} (h : i < b.length) : Safe (lift (index b i)) := by
  rw [index_ok h]
  exact Bounded.pure _

theorem safe_readLength : Safe readLength := by
  refine safe_readByte.bind fun first => ?_
  split
  · refine (safe_readSlice 3).bind_result fun c b c' hread => ?_
    have hlen := length_of_readSlice hread
    refine (safe_lift_index (by omega)).bind fun low => ?_
    refine (safe_lift_index (by omega)).bind fun middle => ?_
    exact (safe_lift_index (by omega)).bind fun high => Bounded.pure _
  · exact Bounded.pure _

theorem safe_readBytes : Safe readBytes := by
  refine safe_readLength.bind fun ⟨len, padding⟩ => (safe_readSlice len).bind fun result => ?_
  show Safe (if padding ≠ 0 then _ else _)
  split
  · exact (safe_readSlice _).bind fun _ => Bounded.pure _
  · exact Bounded.pure _

theorem safe_deserializeU32 : Safe deserializeU32 :=
  (safe_readExact 4).bind fun _ => Bounded.pure _

theorem safe_deserializeBool : Safe deserializeBool := by
  refine safe_deserializeU32.bind fun id => ?_
  split
  · exact Bounded.pure _
  · split
    · exact Bounded.pure _
    · exact Bounded.throw (by simp)

theorem safe_deserializeVector {deserialize : Read α} (h : Safe deserialize) :
    Safe (deserializeVector deserialize) := by
  rw [deserializeVector_eq]
  exact safe_deserializeU32.bind fun len => h.many _

theorem safe_deserializeVec {deserialize : Read α} (h : Safe deserialize) :
    Safe (deserializeVec deserialize) := by
  refine safe_deserializeU32.bind fun id => ?_
  split
  · exact Bounded.throw (by simp)
  · exact safe_deserializeVector h

/-! Values of any nesting. -/

/-- The types that values are built from. -/
inductive Ty where
  | i32
  | u32
  | i64
  | f64
  | int128
  | int256
  | bool
  | bytes
  | string
  | vec (item : Ty)
  | rawVec (item : Ty)
  deriving DecidableEq

structure RawVec (α : Type) where
  items : List α

def Ty.Value : Ty → Type
  | .i32 => Int32
  | .u32 => UInt32
  | .i64 => Int64
  | .f64 => UInt64
  | .int128 => { b : Bytes // b.length = 16 }
  | .int256 => { b : Bytes // b.length = 32 }
  | .bool => Bool
  | .bytes => Bytes
  | .string => String
  | .vec item => List item.Value
  | .rawVec item => RawVec item.Value

def serialize : (t : Ty) → t.Value → Bytes
  | .i32, v => serializeI32 v
  | .u32, v => serializeU32 v
  | .i64, v => serializeI64 v
  | .f64, v => serializeF64 v
  | .int128, v => v.val
  | .int256, v => v.val
  | .bool, v => serializeBool v
  | .bytes, v => serializeBytes v
  | .string, v => serializeBytes (asBytes v)
  | .vec item, v => serializeVec (serialize item) v
  | .rawVec item, v => serializeRawVec (serialize item) v.items

/-- An array of fixed length, filled from the buffer. -/
def deserializeArray (n : Nat) : Read { b : Bytes // b.length = n } := do
  let buffer ← readExact n
  if h : buffer.length = n then pure ⟨buffer, h⟩ else throw .panic

def deserialize : (t : Ty) → Read t.Value
  | .i32 => deserializeI32
  | .u32 => deserializeU32
  | .i64 => deserializeI64
  | .f64 => deserializeF64
  | .int128 => deserializeArray 16
  | .int256 => deserializeArray 32
  | .bool => deserializeBool
  | .bytes => deserializeBytes
  | .string => deserializeString
  | .vec item => deserializeVec (deserialize item)
  | .rawVec item => RawVec.mk <$> deserializeVector (deserialize item)

def Ty.vecItems {item : Ty} (v : (Ty.vec item).Value) : List item.Value := v

/-- A value whose lengths fit the wire format. -/
def Fits : (t : Ty) → t.Value → Prop
  | .bytes, v => List.length v < 2 ^ 24
  | .string, v => (asBytes v).length < 2 ^ 24
  | .vec item, v => (Ty.vecItems v).length < 2 ^ 31 ∧ ∀ x ∈ Ty.vecItems v, Fits item x
  | .rawVec item, v => v.items.length < 2 ^ 31 ∧ ∀ x ∈ v.items, Fits item x
  | _, _ => True

theorem code_array {n : Nat} (v : { b : Bytes // b.length = n }) :
    Code (deserializeArray n) d eof v.val v := by
  have hcode : Code (deserializeArray n) d eof (v.val ++ []) v := by
    refine (code_readExact v.property).bind ?_
    rw [dif_pos v.property]
    exact Code.pure v
  rwa [List.append_nil] at hcode

/-- Every value is read back from its bytes, at any depth. -/
theorem code_serialize (t : Ty) (v : t.Value) (h : Fits t v) :
    Code (deserialize t) d eof (serialize t v) v := by
  induction t with
  | i32 => exact code_i32 v
  | u32 => exact code_u32 v
  | i64 => exact code_i64 v
  | f64 => exact code_f64 v
  | int128 => exact code_array v
  | int256 => exact code_array v
  | bool => exact code_bool v
  | bytes =>
    rw [deserialize, deserializeBytes_eq]
    exact code_readBytes h
  | string => exact code_string h
  | vec item ih => exact code_vec (fun x hx => ih x (h.2 x hx)) h.1
  | rawVec item ih => exact (code_rawVec (fun x hx => ih x (h.2 x hx)) h.1).map

theorem length_flatMap_serialize {serialize : α → Bytes} (vs : List α)
    (h : ∀ v ∈ vs, (serialize v).length % 4 = 0) : (vs.flatMap serialize).length % 4 = 0 := by
  induction vs with
  | nil => rfl
  | cons v vs ih =>
    have hv := h v List.mem_cons_self
    have hvs := ih fun w hw => h w (List.mem_cons_of_mem _ hw)
    rw [List.flatMap_cons, List.length_append]
    omega

theorem length_serialize (t : Ty) (v : t.Value) : (serialize t v).length % 4 = 0 := by
  induction t with
  | i32 => simp [serialize, serializeI32]
  | u32 => simp [serialize, serializeU32]
  | i64 => simp [serialize, serializeI64]
  | f64 => simp [serialize, serializeF64]
  | int128 => simp [serialize, v.property]
  | int256 => simp [serialize, v.property]
  | bool => simp [serialize, serializeBool, serializeU32]
  | bytes => exact length_serializeBytes v
  | string => exact length_serializeBytes (asBytes v)
  | vec item ih =>
    have hitems := length_flatMap_serialize v fun x _ => ih x
    simp only [serialize, serializeVec, serializeRawVec, serializeU32, serializeI32,
      List.length_append, LittleEndian.length_toBytes]
    omega
  | rawVec item ih =>
    have hitems := length_flatMap_serialize v.items fun x _ => ih x
    simp only [serialize, serializeRawVec, serializeI32, List.length_append,
      LittleEndian.length_toBytes]
    omega

theorem safe_deserializeArray (n : Nat) : Safe (deserializeArray n) := by
  refine (safe_readExact n).bind_result fun c b c' hread => ?_
  rw [readExact_eq] at hread
  rw [dif_pos (length_of_readSlice hread)]
  exact Bounded.pure _

theorem safe_deserialize (t : Ty) : Safe (deserialize t) := by
  induction t with
  | i32 => exact (safe_readExact 4).bind fun _ => Bounded.pure _
  | u32 => exact safe_deserializeU32
  | i64 => exact (safe_readExact 8).bind fun _ => Bounded.pure _
  | f64 => exact (safe_readExact 8).bind fun _ => Bounded.pure _
  | int128 => exact safe_deserializeArray 16
  | int256 => exact safe_deserializeArray 32
  | bool => exact safe_deserializeBool
  | bytes => exact safe_readBytes
  | string => exact safe_readBytes.bind fun _ => Bounded.pure _
  | vec item ih => exact safe_deserializeVec ih
  | rawVec item ih => exact (safe_deserializeVector ih).map

/-- The primitives of the wire format are a self-delimiting code. -/
structure SelfDelimiting : Prop where
  decoded : ∀ (t : Ty) (v : t.Value) (rest : Bytes), Fits t v →
    deserialize t (fromSlice (serialize t v ++ rest)) =
      .ok v { fromSlice (serialize t v ++ rest) with pos := (serialize t v).length }
  aligned : ∀ (t : Ty) (v : t.Value), (serialize t v).length % 4 = 0
  prefixes : ∀ (t : Ty) (v : t.Value), Fits t v → ∀ q, q <+: serialize t v → q ≠ serialize t v →
    ∃ c, deserialize t (fromSlice q) = .error (.error .unexpectedEof) c
  borrowed : ∀ c, readBytes c = deserialize .bytes c
  total : ∀ t, Safe (deserialize t)
  reads : Safe readByte ∧ (∀ n, Safe (readSlice n)) ∧ Safe readBytes ∧ (∀ n, Safe (readExact n)) ∧
    Safe readToEnd

theorem tl_primitives_self_delimiting : SelfDelimiting where
  decoded t v rest h := by
    have hcode := (code_serialize (d := 0) t v h).decodes [] rest
    simpa [fromSlice] using hcode
  aligned := length_serialize
  prefixes t v h q hq hne := by
    simpa [fromSlice, eof] using (code_serialize (d := 0) t v h).starves [] q hq hne
  borrowed c := congrFun deserializeBytes_eq.symm c
  total := safe_deserialize
  reads := ⟨safe_readByte, safe_readSlice, safe_readBytes, safe_readExact, safe_readToEnd⟩

end Grammers.Tl
