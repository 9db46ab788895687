import Vecvec.Machinery.RecordLog

/-!
# Persist/Frame — the framing of whole files

Every artifact but the log is written whole, framed as

    "VVEC" | format version (4) | kind (4) | payload length (8) | payload | crc32 (4) | "VEND"

with the checksum taken over everything before it.  `parseFramed` is handed arbitrary bytes, a
file's; its arithmetic is that of 64-bit words, and a build may or may not check it for overflow.
-/

namespace Vecvec

open Machinery.RecordLog

/-! ## The code -/

/-- `MAGIC` -/
def magic : List UInt8 := [0x56, 0x56, 0x45, 0x43]

/-- `END_MAGIC` -/
def endMagic : List UInt8 := [0x56, 0x45, 0x4E, 0x44]

/-- `HEADER_LEN` -/
def headerLen : ℕ := 20

/-- `FOOTER_LEN` -/
def footerLen : ℕ := 8

/-- The kind of artifact a framed file stores. -/
inductive FileKind
  | generic
  | manifest
  | segment
  | deletionVector
  | head
  | snapshot
  deriving DecidableEq

/-- The raw tag written into the header. -/
def FileKind.asU32 : FileKind → UInt32
  | generic => 0
  | manifest => 1
  | segment => 2
  | deletionVector => 3
  | head => 4
  | snapshot => 5

/-- The header of a frame. -/
def frameHeader (formatVersion kind : UInt32) (payload : List UInt8) : List UInt8 :=
  magic ++ toLe32 formatVersion.toNat ++ toLe32 kind.toNat ++ toLe64 payload.length

/-- The bytes of a frame. -/
def frameBytes (crc32 : List UInt8 → UInt32) (formatVersion kind : UInt32)
    (payload : List UInt8) : List UInt8 :=
  frameHeader formatVersion kind payload ++ payload ++
    toLe32 (crc32 (frameHeader formatVersion kind payload ++ payload)).toNat ++ endMagic

/-- The bytes `write_atomic` leaves under the target's name. -/
def writeAtomicBytes (crc32 : List UInt8 → UInt32) (kind : FileKind) (formatVersion : UInt32)
    (payload : List UInt8) : List UInt8 := frameBytes crc32 formatVersion kind.asU32 payload

/-- A byte slice: it has at most `isize::MAX` elements. -/
structure Slice where
  /-- The bytes. -/
  bytes : List UInt8
  /-- No slice is longer. -/
  fits : bytes.length < 2 ^ 63

/-- `&bytes[a..b]`, which panics out of range. -/
def Slice.range (s : Slice) (a b : ℕ) : Option (List UInt8) :=
  if a ≤ b ∧ b ≤ s.bytes.length then some ((s.bytes.drop a).take (b - a)) else none

/-- A 64-bit sum: an overflow panics where the build checks for it, and wraps where it does not. -/
def addU64 (checks : Bool) (a b : ℕ) : Option ℕ :=
  if a + b < 2 ^ 64 then some (a + b) else if checks then none else some ((a + b) % 2 ^ 64)

/-- The errors of reading a framed file. -/
inductive FrameError
  | corrupt (path detail : String)
  | badMagic (path : String) (expected found : List UInt8)
  | checksumMismatch (path : String) (expected computed : UInt32)
  deriving DecidableEq

/-- A validated view of framed bytes. -/
structure FrameView where
  /-- The payload's format version. -/
  formatVersion : UInt32
  /-- The raw kind tag. -/
  kind : UInt32
  /-- The payload. -/
  payload : List UInt8
  deriving DecidableEq

section

variable (crc32 : List UInt8 → UInt32) (checks : Bool) (path : String) (bytes : Slice)

/-- `parse_framed` from the reading of the footer on. -/
def parseFooter (formatVersion kind : UInt32) (payloadLen : ℕ) :
    ExceptT FrameError Option FrameView := do
  let payloadEnd ← addU64 checks headerLen payloadLen
  let storedCrc := UInt32.ofNat (ofLe (← bytes.range payloadEnd (← addU64 checks payloadEnd 4)))
  let found ← bytes.range (← addU64 checks payloadEnd 4) (← addU64 checks payloadEnd 8)
  if found ≠ endMagic then
    throw (.corrupt path "missing end magic (truncated tail)")
  else
    let computed := crc32 (← bytes.range 0 payloadEnd)
    if computed ≠ storedCrc then
      throw (.checksumMismatch path storedCrc computed)
    else
      return ⟨formatVersion, kind, ← bytes.range headerLen payloadEnd⟩

/-- `parse_framed` from the check of the declared length on. -/
def parseSized (formatVersion kind : UInt32) (payloadLen : ℕ) :
    ExceptT FrameError Option FrameView := do
  let expectedTotal ← addU64 checks (← addU64 checks headerLen payloadLen) footerLen
  if bytes.bytes.length ≠ expectedTotal then
    throw (.corrupt path (s!"length mismatch: header declares {payloadLen}-byte payload " ++
      s!"(expected {expectedTotal} total) but file is {bytes.bytes.length} bytes"))
  else
    parseFooter crc32 checks path bytes formatVersion kind payloadLen

/-- `parse_framed`: a view, an error, or (`none`) a panic. -/
def parseFramed : ExceptT FrameError Option FrameView := do
  if bytes.bytes.length < headerLen + footerLen then
    throw (.corrupt path s!"file too short: {bytes.bytes.length} bytes")
  else
    let found ← bytes.range 0 4
    if found ≠ magic then
      throw (.badMagic path magic found)
    else
      let formatVersion := UInt32.ofNat (ofLe (← bytes.range 4 8))
      let kind := UInt32.ofNat (ofLe (← bytes.range 8 12))
      let payloadLen := ofLe (← bytes.range 12 20)
      parseSized crc32 checks path bytes formatVersion kind payloadLen

end

/-! ## Words and ranges -/

/-- Going on from a word or a range that is there. -/
theorem liftM_some_bind {α β : Type} (a : α) (f : α → ExceptT FrameError Option β) :
    (liftM (some a) : ExceptT FrameError Option α) >>= f = f a := rfl

section

variable {crc32 : List UInt8 → UInt32} {checks : Bool} {path : String} {bytes : Slice}

/-- The payload length the header declares. -/
def Slice.declaredLen (bytes : Slice) : ℕ := ofLe ((bytes.bytes.drop 12).take 8)

theorem Slice.range_of_le {a b : ℕ} (hab : a ≤ b) (hb : b ≤ bytes.bytes.length) :
    bytes.range a b = some ((bytes.bytes.drop a).take (b - a)) := if_pos ⟨hab, hb⟩

theorem Slice.declaredLen_lt (h : 28 ≤ bytes.bytes.length) : bytes.declaredLen < 2 ^ 64 := by
  have hlt := ofLe_lt ((bytes.bytes.drop 12).take 8)
  rwa [List.length_take, List.length_drop, Nat.min_eq_left (by omega)] at hlt

theorem addU64_of_lt {a b : ℕ} (h : a + b < 2 ^ 64) : addU64 checks a b = some (a + b) := if_pos h

/-- The length of a frame with a payload of `n` bytes, as the build computes it. -/
def frameTotal (checks : Bool) (n : ℕ) : Option ℕ :=
  (addU64 checks headerLen n).bind fun a => addU64 checks a footerLen

theorem frameTotal_of_lt {n : ℕ} (h : 28 + n < 2 ^ 64) : frameTotal checks n = some (28 + n) := by
  rw [frameTotal, addU64_of_lt (by rw [headerLen]; omega), Option.bind_some,
    addU64_of_lt (by rw [headerLen, footerLen]; omega), headerLen, footerLen]
  congr 1
  omega

/-- A checked build panics on the sum. -/
theorem frameTotal_checked {n : ℕ} (h : 2 ^ 64 ≤ 28 + n) : frameTotal true n = none := by
  rw [frameTotal, headerLen, footerLen]
  by_cases hn : 20 + n < 2 ^ 64
  · rw [addU64_of_lt hn, Option.bind_some, addU64, if_neg (by omega), if_pos rfl]
  · rw [addU64, if_neg hn, if_pos rfl, Option.bind_none]

/-- The other build wraps. -/
theorem frameTotal_wraps {n : ℕ} (hn : n < 2 ^ 64) (h : 2 ^ 64 ≤ 28 + n) :
    frameTotal false n = some (28 + n - 2 ^ 64) := by
  rw [frameTotal, headerLen, footerLen]
  by_cases hn' : 20 + n < 2 ^ 64
  · rw [addU64_of_lt hn', Option.bind_some, addU64, if_neg (by omega), if_neg Bool.false_ne_true]
    exact congrArg some (by omega)
  · rw [addU64, if_neg hn', if_neg Bool.false_ne_true, Option.bind_some,
      addU64_of_lt (by omega)]
    exact congrArg some (by omega)

/-! ## The parser, by cases

The checks in the parser's order: whether there is room for a frame, the magic, whether the declared
length overflows, and the frame's own length, tail and checksum. -/

/-- Too short for a header and a footer. -/
theorem parseFramed_short (h : bytes.bytes.length < 28) :
    (parseFramed crc32 checks path bytes).run =
      some (.error (.corrupt path s!"file too short: {bytes.bytes.length} bytes")) := by
  rw [parseFramed, if_pos (show _ < headerLen + footerLen from h)]
  rfl

/-- Another magic. -/
theorem parseFramed_badMagic (h : 28 ≤ bytes.bytes.length) (hm : bytes.bytes.take 4 ≠ magic) :
    (parseFramed crc32 checks path bytes).run =
      some (.error (.badMagic path magic (bytes.bytes.take 4))) := by
  rw [parseFramed, if_neg (show ¬ _ < headerLen + footerLen from Nat.not_lt.mpr h),
    Slice.range_of_le (by omega) (by omega)]
  change ExceptT.run (if bytes.bytes.take 4 ≠ magic then _ else _) = _
  rw [if_pos hm]
  rfl

/-- The fields of the header. -/
theorem parseFramed_header (h : 28 ≤ bytes.bytes.length) (hm : bytes.bytes.take 4 = magic) :
    parseFramed crc32 checks path bytes =
      parseSized crc32 checks path bytes (UInt32.ofNat (ofLe ((bytes.bytes.drop 4).take 4)))
        (UInt32.ofNat (ofLe ((bytes.bytes.drop 8).take 4))) bytes.declaredLen := by
  rw [parseFramed, if_neg (show ¬ _ < headerLen + footerLen from Nat.not_lt.mpr h),
    Slice.range_of_le (by omega) (by omega), Slice.range_of_le (by omega) (by omega),
    Slice.range_of_le (by omega) (by omega), Slice.range_of_le (by omega) (by omega)]
  change (if bytes.bytes.take 4 ≠ magic then _ else _ : ExceptT FrameError Option FrameView) = _
  rw [if_neg (not_not.mpr hm)]
  rfl

variable {v kind : UInt32} {n : ℕ}

/-- The length check, on the sum as the build computes it. -/
theorem run_parseSized :
    (parseSized crc32 checks path bytes v kind n).run =
      (frameTotal checks n).bind fun total =>
        if bytes.bytes.length ≠ total then
          some (.error (.corrupt path (s!"length mismatch: header declares {n}-byte payload " ++
            s!"(expected {total} total) but file is {bytes.bytes.length} bytes")))
        else (parseFooter crc32 checks path bytes v kind n).run := by
  rw [parseSized, frameTotal]
  cases addU64 checks headerLen n with
  | none => rfl
  | some a =>
    rw [liftM_some_bind, Option.bind_some]
    cases addU64 checks a footerLen with
    | none => rfl
    | some total =>
      rw [liftM_some_bind, Option.bind_some]
      split <;> rfl

/-- A frame of the declared length: what is left are its tail and its checksum. -/
theorem run_parseFooter (h : bytes.bytes.length = 28 + n) :
    (parseFooter crc32 checks path bytes v kind n).run =
      some (if (bytes.bytes.drop (24 + n)).take 4 ≠ endMagic then
          .error (.corrupt path "missing end magic (truncated tail)")
        else if crc32 (bytes.bytes.take (20 + n)) ≠
            UInt32.ofNat (ofLe ((bytes.bytes.drop (20 + n)).take 4)) then
          .error (.checksumMismatch path
            (UInt32.ofNat (ofLe ((bytes.bytes.drop (20 + n)).take 4)))
            (crc32 (bytes.bytes.take (20 + n))))
        else .ok ⟨v, kind, (bytes.bytes.drop 20).take n⟩) := by
  have hfits := bytes.fits
  have h₁ : addU64 checks headerLen n = some (20 + n) := addU64_of_lt (by rw [headerLen]; omega)
  have h₂ : addU64 checks (20 + n) 4 = some (24 + n) := by
    rw [addU64_of_lt (by omega)]; congr 1; omega
  have h₃ : addU64 checks (20 + n) 8 = some (28 + n) := by
    rw [addU64_of_lt (by omega)]; congr 1; omega
  have h₄ : bytes.range (20 + n) (24 + n) = some ((bytes.bytes.drop (20 + n)).take 4) := by
    rw [Slice.range_of_le (by omega) (by omega)]; congr 2; omega
  have h₅ : bytes.range (24 + n) (28 + n) = some ((bytes.bytes.drop (24 + n)).take 4) := by
    rw [Slice.range_of_le (by omega) (by omega)]; congr 2; omega
  have h₆ : bytes.range 0 (20 + n) = some (bytes.bytes.take (20 + n)) := by
    rw [Slice.range_of_le (by omega) (by omega), List.drop_zero, Nat.sub_zero]
  have h₇ : bytes.range headerLen (20 + n) = some ((bytes.bytes.drop 20).take n) := by
    rw [Slice.range_of_le (by rw [headerLen]; omega) (by omega), headerLen]; congr 2; omega
  simp only [parseFooter, h₁, h₂, h₃, h₄, h₅, h₆, h₇, liftM_some_bind]
  split
  · rfl
  · split <;> rfl

/-! ## What is accepted -/

/-- **A frame reads back** as its version, its kind and its payload. -/
theorem parseFramed_frameBytes {payload : List UInt8}
    (hb : bytes.bytes = frameBytes crc32 v kind payload) :
    (parseFramed crc32 checks path bytes).run = some (.ok ⟨v, kind, payload⟩) := by
  have hfits := bytes.fits
  have hhead : (frameHeader v kind payload).length = 20 := rfl
  have hlen : bytes.bytes.length = 28 + payload.length := by
    rw [hb, frameBytes]
    simp only [List.length_append, hhead, length_toLe32, endMagic, List.length_cons,
      List.length_nil]
    omega
  have hdeclared : bytes.declaredLen = payload.length := by
    have : (bytes.bytes.drop 12).take 8 = toLe64 payload.length := by rw [hb]; rfl
    rw [Slice.declaredLen, this, ofLe_toLe64, Nat.mod_eq_of_lt (by omega)]
  have hv : UInt32.ofNat (ofLe ((bytes.bytes.drop 4).take 4)) = v := by
    have : (bytes.bytes.drop 4).take 4 = toLe32 v.toNat := by rw [hb]; rfl
    rw [this, ofLe_toLe32, Nat.mod_eq_of_lt v.toNat_lt, UInt32.ofNat_toNat]
  have hkind : UInt32.ofNat (ofLe ((bytes.bytes.drop 8).take 4)) = kind := by
    have : (bytes.bytes.drop 8).take 4 = toLe32 kind.toNat := by rw [hb]; rfl
    rw [this, ofLe_toLe32, Nat.mod_eq_of_lt kind.toNat_lt, UInt32.ofNat_toNat]
  have hbody : bytes.bytes.take (20 + payload.length) = frameHeader v kind payload ++ payload := by
    rw [hb, frameBytes, List.append_assoc (_ ++ _), List.take_left' (by simp [hhead])]
  have hcrc : (bytes.bytes.drop (20 + payload.length)).take 4 =
      toLe32 (crc32 (frameHeader v kind payload ++ payload)).toNat := by
    rw [hb, frameBytes, List.append_assoc (_ ++ _), List.drop_left' (by simp [hhead])]
    rfl
  have htail : (bytes.bytes.drop (24 + payload.length)).take 4 = endMagic := by
    rw [hb, frameBytes, List.drop_left' (by simp [hhead]; omega)]
    rfl
  have hpayload : (bytes.bytes.drop 20).take payload.length = payload := by
    rw [hb, frameBytes, List.append_assoc, List.append_assoc, List.drop_left' hhead,
      List.take_left' rfl]
  rw [parseFramed_header (by omega) (by rw [hb]; rfl), run_parseSized, hdeclared,
    frameTotal_of_lt (by omega), Option.bind_some, if_neg (not_not.mpr hlen),
    run_parseFooter hlen, if_neg (not_not.mpr htail), hcrc, ofLe_toLe32,
    Nat.mod_eq_of_lt (UInt32.toNat_lt _), UInt32.ofNat_toNat, hbody, if_neg (not_not.mpr rfl), hv,
    hkind, hpayload]

/-- The header and the payload, from their fields. -/
theorem take_eq_of_fields (hm : bytes.bytes.take 4 = magic)
    (hlen : bytes.bytes.length = 28 + bytes.declaredLen) :
    bytes.bytes.take (20 + bytes.declaredLen) =
      magic ++ (bytes.bytes.drop 4).take 4 ++ (bytes.bytes.drop 8).take 4 ++
        toLe64 bytes.declaredLen ++ (bytes.bytes.drop 20).take bytes.declaredLen := by
  have hdeclared : toLe64 bytes.declaredLen = (bytes.bytes.drop 12).take 8 :=
    toLe64_ofLe (by rw [List.length_take, List.length_drop]; omega)
  rw [List.take_add, show 20 = 12 + 8 from rfl, List.take_add, show 12 = 8 + 4 from rfl,
    List.take_add, show 8 = 4 + 4 from rfl, List.take_add, hm, hdeclared]

/-- …and the whole file, with its footer. -/
theorem bytes_eq_of_fields (hlen : bytes.bytes.length = 28 + bytes.declaredLen)
    (htail : (bytes.bytes.drop (24 + bytes.declaredLen)).take 4 = endMagic) :
    bytes.bytes = bytes.bytes.take (20 + bytes.declaredLen) ++
      (bytes.bytes.drop (20 + bytes.declaredLen)).take 4 ++ endMagic := by
  have hend : (bytes.bytes.drop (24 + bytes.declaredLen)).take 4 =
      bytes.bytes.drop (24 + bytes.declaredLen) :=
    List.take_of_length_le (by rw [List.length_drop]; omega)
  rw [← htail, hend, ← List.take_add, show 20 + bytes.declaredLen + 4 = 24 + bytes.declaredLen
    by omega, List.take_append_drop]

/-- A declared length that leaves no room below `2 ^ 64` is never accepted. -/
theorem parseSized_overflow (hn : n < 2 ^ 64) (h : 28 ≤ bytes.bytes.length)
    (ho : 2 ^ 64 ≤ 28 + n) :
    (parseSized crc32 checks path bytes v kind n).run = none ∧ checks = true ∨
      checks = false ∧ ∃ e, (parseSized crc32 checks path bytes v kind n).run
        = some (.error e) := by
  cases checks with
  | true => exact .inl ⟨by rw [run_parseSized, frameTotal_checked ho, Option.bind_none], rfl⟩
  | false =>
    refine .inr ⟨rfl, ?_⟩
    rw [run_parseSized, frameTotal_wraps hn ho, Option.bind_some, if_pos (by omega)]
    exact ⟨_, rfl⟩

/-- **Only frames are accepted.** -/
theorem frameBytes_of_parseFramed {view : FrameView}
    (h : (parseFramed crc32 checks path bytes).run = some (.ok view)) :
    bytes.bytes = frameBytes crc32 view.formatVersion view.kind view.payload := by
  have hfits := bytes.fits
  by_cases hlen : bytes.bytes.length < 28
  · rw [parseFramed_short hlen] at h
    cases h
  by_cases hm : bytes.bytes.take 4 = magic
  case neg =>
    rw [parseFramed_badMagic (Nat.not_lt.mp hlen) hm] at h
    cases h
  rw [parseFramed_header (Nat.not_lt.mp hlen) hm] at h
  have hL := Slice.declaredLen_lt (Nat.not_lt.mp hlen)
  by_cases hfit : 28 + bytes.declaredLen < 2 ^ 64
  case neg =>
    rcases parseSized_overflow hL (Nat.not_lt.mp hlen) (Nat.not_lt.mp hfit) with
      ⟨hp, -⟩ | ⟨-, e, hp⟩ <;> rw [hp] at h <;> cases h
  rw [run_parseSized, frameTotal_of_lt hfit, Option.bind_some] at h
  split at h
  · cases h
  rename_i heq
  rw [not_not] at heq
  rw [run_parseFooter heq, Option.some.injEq] at h
  split at h
  · cases h
  split at h
  · cases h
  rename_i htail hcrc
  rw [not_not] at htail hcrc
  cases h
  have hword (a : ℕ) (ha : a + 4 ≤ 28 + bytes.declaredLen) :
      toLe32 (UInt32.ofNat (ofLe ((bytes.bytes.drop a).take 4))).toNat =
        (bytes.bytes.drop a).take 4 := by
    have hfour : ((bytes.bytes.drop a).take 4).length = 4 := by
      rw [List.length_take, List.length_drop]; omega
    have hlt := ofLe_lt ((bytes.bytes.drop a).take 4)
    rw [hfour] at hlt
    rw [UInt32.toNat_ofNat_of_lt' hlt, toLe32_ofLe hfour]
  have hpayload : ((bytes.bytes.drop 20).take bytes.declaredLen).length = bytes.declaredLen := by
    rw [List.length_take, List.length_drop]; omega
  rw [frameBytes, frameHeader, hword 4 (by omega), hword 8 (by omega), hpayload,
    ← take_eq_of_fields hm heq, hcrc, hword _ (by omega)]
  exact bytes_eq_of_fields heq htail

/-! ## When it panics -/

/-- The header leaves the parser to compute a frame length of `2 ^ 64` or more. -/
def Slice.Overflows (bytes : Slice) : Prop :=
  28 ≤ bytes.bytes.length ∧ bytes.bytes.take 4 = magic ∧ 2 ^ 64 ≤ 28 + bytes.declaredLen

instance : Decidable bytes.Overflows := by unfold Slice.Overflows; infer_instance

/-- **The parser panics** exactly where a build with overflow checks meets such a header. -/
theorem parseFramed_eq_none_iff :
    (parseFramed crc32 checks path bytes).run = none ↔ checks = true ∧ bytes.Overflows := by
  by_cases hlen : 28 ≤ bytes.bytes.length
  case neg =>
    rw [parseFramed_short (Nat.not_le.mp hlen)]
    exact ⟨fun h => by (cases h), fun h => absurd h.2.1 hlen⟩
  by_cases hm : bytes.bytes.take 4 = magic
  case neg =>
    rw [parseFramed_badMagic hlen hm]
    exact ⟨fun h => by (cases h), fun h => absurd h.2.2.1 hm⟩
  rw [parseFramed_header hlen hm]
  by_cases hfit : 28 + bytes.declaredLen < 2 ^ 64
  · refine ⟨fun h => ?_, fun h => absurd h.2.2.2 (Nat.not_le.mpr hfit)⟩
    rw [run_parseSized, frameTotal_of_lt hfit, Option.bind_some] at h
    split at h
    · cases h
    · rename_i heq
      rw [run_parseFooter (not_not.mp heq)] at h
      cases h
  · rcases @parseSized_overflow crc32 checks path bytes (UInt32.ofNat _) (UInt32.ofNat _) _
      (Slice.declaredLen_lt hlen) hlen (Nat.not_lt.mp hfit) with ⟨hp, hc⟩ | ⟨hc, e, hp⟩
    · exact ⟨fun _ => ⟨hc, hlen, hm, Nat.not_lt.mp hfit⟩, fun _ => hp⟩
    · rw [hp]
      exact ⟨fun h => by (cases h), fun h => by rw [hc] at h; cases h.1⟩

/-- What the parser owes a byte string: no panic, and nothing accepted but a frame. -/
def ParsesExactly (crc32 : List UInt8 → UInt32) (checks : Bool) (path : String)
    (bytes : Slice) : Prop :=
  (parseFramed crc32 checks path bytes).run ≠ none ∧
    ∀ view, (parseFramed crc32 checks path bytes).run = some (.ok view) →
      bytes.bytes = frameBytes crc32 view.formatVersion view.kind view.payload

end

/-- **The parser accepts exactly the frames the writer produces**, and panics on no other bytes than
a header whose length overflows in a build that checks: every frame is read back as what was
written, and every other byte string is rejected. -/
theorem parseFramed_exact (crc32 : List UInt8 → UInt32) (checks : Bool) (path : String) :
    (∀ (kind : FileKind) (version : UInt32) (payload : List UInt8) (bytes : Slice),
      bytes.bytes = writeAtomicBytes crc32 kind version payload →
      (parseFramed crc32 checks path bytes).run = some (.ok ⟨version, kind.asU32, payload⟩)) ∧
    ∀ bytes, ParsesExactly crc32 checks path bytes ↔ ¬ (checks = true ∧ bytes.Overflows) :=
  ⟨fun _ _ _ _ hb => parseFramed_frameBytes hb, fun _ =>
    ⟨fun h ho => h.1 (parseFramed_eq_none_iff.mpr ho), fun h =>
      ⟨fun hn => h (parseFramed_eq_none_iff.mp hn), fun _ => frameBytes_of_parseFramed⟩⟩⟩

/-- A header that declares a payload of `2 ^ 64 - 1` bytes. -/
def hostileHeader : Slice :=
  ⟨magic ++ List.replicate 8 0 ++ List.replicate 8 0xFF ++ List.replicate 8 0, by decide⟩

/-- **Twenty-eight bytes** that make a build with overflow checks panic. -/
theorem parseFramed_panics : ¬ ParsesExactly (fun _ => 0) true "segment" hostileHeader :=
  fun h => h.1 (parseFramed_eq_none_iff.mpr ⟨rfl, by decide⟩)

end Vecvec
