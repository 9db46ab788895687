import Vecvec.Persist.Wal
import Vecvec.Version.Policy

/-!
# Persist/Sample — a concrete platform

A platform on which histories can be computed.  Its codec writes the MessagePack bytes of the
records used in them — a delete, and an upsert of a single component, without a payload or with a
long string for one, all under ids below 128 — and reads back those without a payload; any other
record it writes as a byte that nothing decodes from.  CRC-32 is the real one, and the scores are
those of vectors of small whole numbers.
-/

namespace Vecvec.Sample

open Machinery.RecordLog

/-! ## The codec -/

/-- Four bytes, high byte first. -/
def be32 (n : ℕ) : List UInt8 := (toLe32 n).reverse

/-- How an upsert of one component begins: a map of one entry, `Upsert`, whose value is an array of
three: the id, an array of one float, … -/
def upsertHead (id : GlobalId) (x : F32) : List UInt8 :=
  [0x81, 0xa6, 0x55, 0x70, 0x73, 0x65, 0x72, 0x74, 0x93, UInt8.ofNat id, 0x91, 0xca] ++
    be32 x.toNat

/-- The MessagePack bytes of the records used in computed histories. -/
def encodeShort : WalOp → Option (List UInt8)
  | .upsert id [x] none => if id < 128 then some (upsertHead id x ++ [0xc0]) else none
  | .upsert id [x] (some (.string s)) =>
    if id < 128 ∧ 2 ^ 16 ≤ s.utf8ByteSize ∧ s.utf8ByteSize < 2 ^ 32 then
      some (upsertHead id x ++ 0xdb :: be32 s.utf8ByteSize ++ s.toByteArray.data.toList)
    else none
  | .delete id =>
    if id < 128 then
      some [0x81, 0xa6, 0x44, 0x65, 0x6c, 0x65, 0x74, 0x65, 0x91, UInt8.ofNat id]
    else none
  | _ => none

/-- The encoder: `0xc1`, which MessagePack never uses, stands for the other records. -/
def encode (op : WalOp) : List UInt8 := (encodeShort op).getD [0xc1]

/-- The record that bytes of these lengths are the code of, if of any. -/
def candidate (bytes : List UInt8) : WalOp :=
  if bytes.length = 10 then .delete (bytes.getD 9 0).toNat
  else .upsert (bytes.getD 9 0).toNat
    [BitVec.ofNat 32 (ofLe ((bytes.drop 12).take 4).reverse)] none

/-- The decoder: the record without a payload that has these bytes, if there is one. -/
def decode (bytes : List UInt8) : Option WalOp :=
  if encodeShort (candidate bytes) = some bytes then some (candidate bytes) else none

/-- No record has no bytes. -/
theorem decode_nil : decode [] = none := if_neg (by decide)

@[simp] theorem length_upsertHead (id : GlobalId) (x : F32) : (upsertHead id x).length = 16 := rfl

theorem toNat_ofNat_of_lt {n : ℕ} (h : n < 128) : (UInt8.ofNat n).toNat = n := by
  rw [UInt8.toNat_ofNat']
  omega

theorem candidate_delete {id : GlobalId} (hid : id < 128) :
    candidate [0x81, 0xa6, 0x44, 0x65, 0x6c, 0x65, 0x74, 0x65, 0x91, UInt8.ofNat id] =
      .delete id :=
  congrArg WalOp.delete (toNat_ofNat_of_lt hid)

theorem candidate_upsert {id : GlobalId} (hid : id < 128) (x : F32) :
    candidate (upsertHead id x ++ [0xc0]) = .upsert id [x] none := by
  have hx : BitVec.ofNat 32 (ofLe (be32 x.toNat).reverse) = x := by
    rw [be32, List.reverse_reverse, ofLe_toLe32, Nat.mod_eq_of_lt x.isLt, BitVec.ofNat_toNat,
      BitVec.setWidth_eq]
  exact congrArg₂ (fun i y => WalOp.upsert i [y] none) (toNat_ofNat_of_lt hid) hx

/-- The records that are read back. -/
def readsBack : WalOp → Bool
  | .upsert id [_] none => id < 128
  | .delete id => id < 128
  | _ => false

theorem readsBack_of_decode {bytes : List UInt8} {op : WalOp} (h : decode bytes = some op) :
    readsBack op := by
  rw [decode] at h
  split at h
  · rename_i hs
    obtain rfl := Option.some.inj h
    by_cases hlen : bytes.length = 10
    · rw [candidate, if_pos hlen] at hs ⊢
      rw [encodeShort] at hs
      split at hs
      · exact decide_eq_true ‹_›
      · cases hs
    · rw [candidate, if_neg hlen] at hs ⊢
      rw [encodeShort] at hs
      split at hs
      · exact decide_eq_true ‹_›
      · cases hs
  · cases h

/-- The records that are read back are written and read as they are in MessagePack. -/
theorem readable_of_readsBack {op : WalOp} (h : readsBack op) : Readable encode decode op := by
  unfold readsBack at h
  split at h
  · rename_i id x
    have hid : id < 128 := of_decide_eq_true h
    have hs : encodeShort (.upsert id [x] none) = some (upsertHead id x ++ [0xc0]) := if_pos hid
    have he : encode (.upsert id [x] none) = upsertHead id x ++ [0xc0] := by
      rw [encode, hs, Option.getD_some]
    refine ⟨by rw [he]; simp, ?_⟩
    rw [he, decode, candidate_upsert hid, if_pos hs]
  · rename_i id
    have hid : id < 128 := of_decide_eq_true h
    have hs : encodeShort (.delete id) =
        some [0x81, 0xa6, 0x44, 0x65, 0x6c, 0x65, 0x74, 0x65, 0x91, UInt8.ofNat id] := if_pos hid
    have he : encode (.delete id) =
        [0x81, 0xa6, 0x44, 0x65, 0x6c, 0x65, 0x74, 0x65, 0x91, UInt8.ofNat id] := by
      rw [encode, hs, Option.getD_some]
    refine ⟨by rw [he]; simp, ?_⟩
    rw [he, decode, candidate_delete hid, if_pos hs]
  · cases h

theorem readable_iff {op : WalOp} : Readable encode decode op ↔ readsBack op :=
  ⟨fun h => readsBack_of_decode h.2, readable_of_readsBack⟩

/-! ## The platform -/

/-- One bit of a CRC-32, reflected. -/
def crcBit (c : UInt32) : UInt32 := (c >>> 1) ^^^ (if c &&& 1 = 1 then 0xedb88320 else 0)

/-- One byte of a CRC-32. -/
def crcByte (c : UInt32) (b : UInt8) : UInt32 := (crcBit^[8]) (c ^^^ b.toUInt32)

/-- CRC-32. -/
def crc32 (bytes : List UInt8) : UInt32 := bytes.foldl crcByte 0xffffffff ^^^ 0xffffffff

/-- A natural number below `2^24`, as an `f32`. -/
def ofNat (n : ℕ) : F32 :=
  if n = 0 then 0
  else BitVec.ofNat 32 ((127 + n.log2) * 2 ^ 23 + (n - 2 ^ n.log2) * 2 ^ (23 - n.log2))

/-- The whole part of a finite `f32` that is not negative. -/
def toNat (x : F32) : ℕ :=
  let e := x.toNat / 2 ^ 23
  if e < 127 then 0 else (2 ^ 23 + x.toNat % 2 ^ 23) * 2 ^ (e - 127) / 2 ^ 23

/-- The scores of vectors of small natural numbers. -/
def scoreF32 (metric : Metric) (q v : List F32) : F32 :=
  match metric with
  | .cosine | .dot => ofNat (List.zipWith (fun x y => toNat x * toNat y) q v).sum
  | .euclidean =>
    ofNat (List.zipWith (fun x y => (toNat x - toNat y) ^ 2 + (toNat y - toNat x) ^ 2) q v).sum

/-- The platform.  Its files are read back, and its vectors are not normalised. -/
def platform : Platform where
  encode := encode
  decode := decode
  headReads := fun _ => true
  versionsRead := fun _ => true
  crc32 := crc32
  l2Normalize := id
  scoreF32 := scoreF32

instance : DecidablePred (WalOp.Fits platform) := fun op =>
  decidable_of_iff (readsBack op) readable_iff.symm

theorem length_l2Normalize (v : List F32) : (platform.l2Normalize v).length = v.length := rfl

/-- The configuration: one dimension, the dot product, and the given automatic commits. -/
def config (everyNWrites : Option ℕ) : CollectionConfig := ⟨1, .dot, ⟨everyNWrites, none⟩⟩

/-- CRC-32's check value. -/
example : crc32 [0x31, 0x32, 0x33, 0x34, 0x35, 0x36, 0x37, 0x38, 0x39] = 0xcbf43926 := by
  decide +kernel

end Vecvec.Sample
