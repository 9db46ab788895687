import Mathlib.Algebra.Ring.Nat
import Mathlib.Data.List.Basic
import Mathlib.Tactic.Common
import Mathlib.Data.Nat.Notation

/-!
# Machinery/RecordLog — an append-only log of length-framed, checksummed records

A record is laid out as

    payload length (4 bytes) | checksum (4 bytes) | payload

little endian, and a reader (`scan`) accepts records from the front until one is incomplete or
fails its check.  What survives a torn write is then a **prefix of the records**
(`scan_frames_prefix`), provided every payload is short enough for its length to fit the header and
decodes to the record it encodes (`Readable`).
The checksum is an arbitrary function: a prefix of a well-formed log is cut by lengths alone.
Whatever its bytes, a log cut back to what was read can be appended to (`scan_take_append`).
-/

namespace Machinery.RecordLog

/-! ## Little-endian words -/

/-- The four bytes of a 32-bit word, low byte first; a longer number loses its high bits. -/
def toLe32 (n : ℕ) : List UInt8 :=
  [UInt8.ofNat n, UInt8.ofNat (n / 256), UInt8.ofNat (n / 256 ^ 2), UInt8.ofNat (n / 256 ^ 3)]

/-- The word a list of bytes spells, low byte first. -/
def ofLe : List UInt8 → ℕ
  | [] => 0
  | b :: bs => b.toNat + 256 * ofLe bs

@[simp] theorem length_toLe32 (n : ℕ) : (toLe32 n).length = 4 := rfl

/-- **A word read back is the number modulo `2^32`.** -/
theorem ofLe_toLe32 (n : ℕ) : ofLe (toLe32 n) = n % 2 ^ 32 := by
  simp only [toLe32, ofLe, UInt8.toNat_ofNat']
  omega

/-- Words side by side, the low one first. -/
theorem ofLe_append (l l' : List UInt8) : ofLe (l ++ l') = ofLe l + 256 ^ l.length * ofLe l' := by
  induction l with
  | nil => simp [ofLe]
  | cons b l ih =>
    rw [List.cons_append, ofLe, ofLe, ih, List.length_cons, Nat.pow_succ', Nat.mul_add,
      Nat.mul_assoc, Nat.add_assoc]

theorem ofLe_lt (l : List UInt8) : ofLe l < 256 ^ l.length := by
  induction l with
  | nil => exact Nat.one_pos
  | cons b l ih =>
    have := b.toNat_lt
    rw [ofLe, List.length_cons, Nat.pow_succ']
    omega

/-- Four bytes are the word they spell. -/
theorem toLe32_ofLe {l : List UInt8} (hl : l.length = 4) : toLe32 (ofLe l) = l := by
  obtain ⟨a, b, c, d, rfl⟩ := List.length_eq_four.mp hl
  have ha := a.toNat_lt
  have hb := b.toNat_lt
  have hc := c.toNat_lt
  have hd := d.toNat_lt
  simp only [toLe32, ofLe, List.cons.injEq, and_true, ← UInt8.toNat_inj, UInt8.toNat_ofNat']
  omega

/-- The eight bytes of a 64-bit word, low byte first. -/
def toLe64 (n : ℕ) : List UInt8 := toLe32 n ++ toLe32 (n / 2 ^ 32)

@[simp] theorem length_toLe64 (n : ℕ) : (toLe64 n).length = 8 := rfl

theorem ofLe_toLe64 (n : ℕ) : ofLe (toLe64 n) = n % 2 ^ 64 := by
  rw [toLe64, ofLe_append, ofLe_toLe32, ofLe_toLe32, length_toLe32]
  omega

/-- Eight bytes are the word they spell. -/
theorem toLe64_ofLe {l : List UInt8} (hl : l.length = 8) : toLe64 (ofLe l) = l := by
  have hlow : (l.take 4).length = 4 := by rw [List.length_take]; omega
  have hhigh : (l.drop 4).length = 4 := by rw [List.length_drop]; omega
  have hlt : ofLe (l.take 4) < 2 ^ 32 := by
    have := ofLe_lt (l.take 4)
    rwa [hlow] at this
  have hsplit : ofLe l = ofLe (l.take 4) + 2 ^ 32 * ofLe (l.drop 4) := by
    have hpow : 256 ^ 4 = 2 ^ 32 := by decide
    conv_lhs => rw [← List.take_append_drop 4 l]
    rw [ofLe_append, hlow, hpow]
  have hmod : toLe32 (ofLe l) = toLe32 (ofLe (l.take 4)) := by
    simp only [toLe32, List.cons.injEq, and_true, ← UInt8.toNat_inj, UInt8.toNat_ofNat']
    omega
  rw [toLe64, hmod, toLe32_ofLe hlow,
    show ofLe l / 2 ^ 32 = ofLe (l.drop 4) by omega, toLe32_ofLe hhigh, List.take_append_drop]

/-! ## The log -/

section

variable {α : Type} (encode : α → List UInt8) (decode : List UInt8 → Option α)
  (checksum : List UInt8 → UInt32)

/-- The bytes of one record. -/
def frame (a : α) : List UInt8 :=
  toLe32 (encode a).length ++ toLe32 (checksum (encode a)).toNat ++ encode a

/-- A record that a reader gives back: its length fits the four bytes the header has for it, and its
payload decodes to it. -/
def Readable (a : α) : Prop := (encode a).length < 2 ^ 32 ∧ decode (encode a) = some a

/-- The bytes of a log. -/
def frames (l : List α) : List UInt8 := l.flatMap (frame encode checksum)

/-- The reader's loop: the records accepted and the number of bytes they take.  `fuel` bounds the
number of records; the length of the input always suffices (`scanFuel_eq`). -/
def scanFuel : ℕ → List UInt8 → List α × ℕ
  | 0, _ => ([], 0)
  | fuel + 1, bytes =>
    if bytes.length < 8 then ([], 0)
    else
      let len := ofLe (bytes.take 4)
      let crc := ofLe ((bytes.drop 4).take 4)
      if (bytes.drop 8).length < len then ([], 0)
      else
        let payload := (bytes.drop 8).take len
        if (checksum payload).toNat = crc then
          match decode payload with
          | some a =>
            let rest := scanFuel fuel ((bytes.drop 8).drop len)
            (a :: rest.1, 8 + len + rest.2)
          | none => ([], 0)
        else ([], 0)

/-- The records at the front of a log, and the byte offset at which the last of them ends. -/
def scan (bytes : List UInt8) : List α × ℕ := scanFuel decode checksum bytes.length bytes

variable {encode decode checksum}

/-- More fuel than bytes changes nothing — a record takes at least eight of them. -/
theorem scanFuel_eq_of_le : ∀ (f g : ℕ) (bytes : List UInt8), bytes.length ≤ f → bytes.length ≤ g →
    scanFuel decode checksum f bytes = scanFuel decode checksum g bytes
  | 0, 0, _, _, _ => rfl
  | 0, g + 1, bytes, hf, _ => by
      rw [scanFuel, scanFuel, if_pos (by omega)]
  | f + 1, 0, bytes, _, hg => by
      rw [scanFuel, scanFuel, if_pos (by omega)]
  | f + 1, g + 1, bytes, hf, hg => by
      rw [scanFuel, scanFuel]
      by_cases h8 : bytes.length < 8
      · rw [if_pos h8, if_pos h8]
      · have hlen : ((bytes.drop 8).drop (ofLe (bytes.take 4))).length ≤ bytes.length - 8 := by
          simp only [List.length_drop]; omega
        rw [if_neg h8, if_neg h8]
        dsimp only
        rw [scanFuel_eq_of_le f g ((bytes.drop 8).drop (ofLe (bytes.take 4))) (by omega)
          (by omega)]

theorem scanFuel_eq {f : ℕ} {bytes : List UInt8} (hf : bytes.length ≤ f) :
    scanFuel decode checksum f bytes = scan decode checksum bytes :=
  scanFuel_eq_of_le f _ bytes hf (Nat.le_refl _)

@[simp] theorem length_frame (a : α) :
    (frame encode checksum a).length = 8 + (encode a).length := by
  simp only [frame, List.length_append, length_toLe32]

@[simp] theorem frames_nil : frames encode checksum [] = [] := rfl

@[simp] theorem frames_cons (a : α) (l : List α) :
    frames encode checksum (a :: l) = frame encode checksum a ++ frames encode checksum l := rfl

@[simp] theorem frames_append (l l' : List α) :
    frames encode checksum (l ++ l') = frames encode checksum l ++ frames encode checksum l' :=
  List.flatMap_append

@[simp] theorem scan_nil : scan decode checksum [] = ([], 0) := rfl

/-- Fewer bytes than a header: nothing is accepted. -/
theorem scan_of_short {bytes : List UInt8} (h : bytes.length < 8) :
    scan decode checksum bytes = ([], 0) := by
  rw [← scanFuel_eq (Nat.le_succ _), scanFuel, if_pos h]

/-- **One step of the reader**, at a record's header. -/
theorem scan_header (n c : ℕ) (rest : List UInt8) :
    scan decode checksum (toLe32 n ++ toLe32 c ++ rest) =
      if rest.length < n % 2 ^ 32 then ([], 0)
      else if (checksum (rest.take (n % 2 ^ 32))).toNat = c % 2 ^ 32 then
        match decode (rest.take (n % 2 ^ 32)) with
        | some a =>
          let tail := scan decode checksum (rest.drop (n % 2 ^ 32))
          (a :: tail.1, 8 + n % 2 ^ 32 + tail.2)
        | none => ([], 0)
      else ([], 0) := by
  set bytes := toLe32 n ++ toLe32 c ++ rest with hb
  have hlen : bytes.length = rest.length + 8 := by
    simp only [hb, List.length_append, length_toLe32]; omega
  have h4 : bytes.take 4 = toLe32 n := rfl
  have h48 : (bytes.drop 4).take 4 = toLe32 c := rfl
  have h8 : bytes.drop 8 = rest := rfl
  rw [← scanFuel_eq (Nat.le_succ _), scanFuel, if_neg (by omega)]
  dsimp only
  rw [h4, h48, h8, ofLe_toLe32, ofLe_toLe32, scanFuel_eq (by rw [List.length_drop]; omega)]

/-- **A whole record at the front is accepted**, if it is readable. -/
theorem scan_frame_append {a : α} (ha : Readable encode decode a) (rest : List UInt8) :
    scan decode checksum (frame encode checksum a ++ rest) =
      (a :: (scan decode checksum rest).1,
        (frame encode checksum a).length + (scan decode checksum rest).2) := by
  have hcrc : (checksum (encode a)).toNat % 2 ^ 32 = (checksum (encode a)).toNat :=
    Nat.mod_eq_of_lt (checksum (encode a)).toNat_lt
  rw [frame, List.append_assoc, scan_header, Nat.mod_eq_of_lt ha.1, if_neg (by simp),
    List.take_left', List.drop_left', if_pos hcrc.symm, ha.2]
  · simp only [List.length_append, length_toLe32]
  · rfl
  · rfl

/-- **A torn record is dropped** — whether the cut falls in its header or in its payload. -/
theorem scan_of_prefix_frame {a : α} (ha : (encode a).length < 2 ^ 32) {bytes : List UInt8}
    (hp : bytes <+: frame encode checksum a) (hne : bytes ≠ frame encode checksum a) :
    scan decode checksum bytes = ([], 0) := by
  by_cases h8 : bytes.length < 8
  · exact scan_of_short h8
  obtain ⟨payload, rfl⟩ : ∃ payload, bytes = toLe32 (encode a).length ++
      toLe32 (checksum (encode a)).toNat ++ payload := by
    refine ⟨bytes.drop 8, ?_⟩
    have hhead : toLe32 (encode a).length ++ toLe32 (checksum (encode a)).toNat <+:
        frame encode checksum a := List.prefix_append _ _
    have := List.prefix_of_prefix_length_le hhead hp (by simp; omega)
    obtain ⟨t, rfl⟩ := this
    rfl
  have hpay : payload <+: encode a := by
    rw [frame] at hp
    exact (List.prefix_append_right_inj _).mp hp
  have hlt : payload.length < (encode a).length := by
    refine Nat.lt_of_le_of_ne hpay.length_le fun h => hne ?_
    rw [hpay.eq_of_length h, frame]
  rw [scan_header, Nat.mod_eq_of_lt ha, if_pos hlt]

/-- **Reading past whole records.** -/
theorem scan_frames_append {l : List α} (hl : ∀ a ∈ l, Readable encode decode a)
    (rest : List UInt8) :
    scan decode checksum (frames encode checksum l ++ rest) =
      (l ++ (scan decode checksum rest).1,
        (frames encode checksum l).length + (scan decode checksum rest).2) := by
  induction l with
  | nil => simp
  | cons a l ih =>
    rw [frames_cons, List.append_assoc, scan_frame_append (hl a List.mem_cons_self),
      ih fun b hb => hl b (List.mem_cons_of_mem _ hb)]
    simp only [List.cons_append, List.length_append, Nat.add_assoc]

/-- A log reads back as its records. -/
theorem scan_frames {l : List α} (hl : ∀ a ∈ l, Readable encode decode a) :
    scan decode checksum (frames encode checksum l) = (l, (frames encode checksum l).length) := by
  simpa using @scan_frames_append _ encode decode checksum l hl []

/-- **A torn log reads back as a prefix of its records**, and ends where the last of them does. -/
theorem scan_frames_prefix {l : List α} (hl : ∀ a ∈ l, Readable encode decode a)
    {bytes : List UInt8}
    (hp : bytes <+: frames encode checksum l) :
    ∃ l', l' <+: l ∧
      scan decode checksum bytes = (l', (frames encode checksum l').length) ∧
      bytes.take (frames encode checksum l').length = frames encode checksum l' := by
  induction l generalizing bytes with
  | nil =>
    obtain rfl : bytes = [] := List.prefix_nil.mp hp
    exact ⟨[], List.nil_prefix, rfl, rfl⟩
  | cons a l ih =>
    have ha := hl a List.mem_cons_self
    rw [frames_cons] at hp
    by_cases hle : (frame encode checksum a).length ≤ bytes.length
    · obtain ⟨rest, rfl⟩ := List.prefix_of_prefix_length_le (List.prefix_append _ _) hp hle
      obtain ⟨l', hl', hscan, htake⟩ :=
        ih (fun b hb => hl b (List.mem_cons_of_mem _ hb)) ((List.prefix_append_right_inj _).mp hp)
      refine ⟨a :: l', (List.cons_prefix_cons.mpr ⟨rfl, hl'⟩), ?_, ?_⟩
      · rw [scan_frame_append ha, hscan, frames_cons, List.length_append]
      · rw [frames_cons, List.length_append, List.take_length_add_append, htake]
    · have hpre : bytes <+: frame encode checksum a :=
        List.prefix_of_prefix_length_le hp (List.prefix_append _ _) (by omega)
      refine ⟨[], List.nil_prefix, ?_, rfl⟩
      rw [scan_of_prefix_frame ha.1 hpre fun h => hle (h ▸ Nat.le_refl _)]
      rfl

/-! ## Reading on from where a reader stopped -/

/-- A reader takes this header and payload for this record. -/
structure Accepts (decode : List UInt8 → Option α) (checksum : List UInt8 → UInt32)
    (header payload : List UInt8) (a : α) : Prop where
  /-- A header is eight bytes. -/
  eight : header.length = 8
  /-- It has the payload's length. -/
  length : ofLe (header.take 4) = payload.length
  /-- And its checksum. -/
  check : (checksum payload).toNat = ofLe (header.drop 4)
  /-- The payload decodes. -/
  decode : decode payload = some a

/-- A record that is accepted is read, whatever follows. -/
theorem Accepts.scan {header payload : List UInt8} {a : α}
    (h : Accepts decode checksum header payload a) (rest : List UInt8) :
    scan decode checksum (header ++ payload ++ rest) =
      (a :: (scan decode checksum rest).1,
        8 + payload.length + (scan decode checksum rest).2) := by
  obtain ⟨hh, hlen, hcheck, hdec⟩ := h
  have h4 : (header ++ payload ++ rest).take 4 = header.take 4 := by
    rw [List.append_assoc, List.take_append_of_le_length (by omega)]
  have h48 : ((header ++ payload ++ rest).drop 4).take 4 = header.drop 4 := by
    rw [List.append_assoc, List.drop_append_of_le_length (by omega),
      List.take_left' (by simp; omega)]
  have h8 : (header ++ payload ++ rest).drop 8 = payload ++ rest := by
    rw [List.append_assoc, List.drop_left' hh]
  rw [← scanFuel_eq (Nat.le_succ _), scanFuel, if_neg (by simp; omega)]
  dsimp only
  rw [h4, h48, h8, hlen, if_neg (by simp), List.take_left' rfl, List.drop_left' rfl, if_pos hcheck,
    hdec]
  dsimp only
  rw [scanFuel_eq (by simp only [List.length_append]; omega)]

/-- **What a reader does first**: it stops, or it accepts a record and goes on behind it. -/
theorem scan_cases (bytes : List UInt8) :
    scan decode checksum bytes = ([], 0) ∨
      ∃ header payload rest a, bytes = header ++ payload ++ rest ∧
        Accepts decode checksum header payload a := by
  by_cases h8 : bytes.length < 8
  · exact .inl (scan_of_short h8)
  rw [← scanFuel_eq (Nat.le_succ _), scanFuel, if_neg h8]
  dsimp only
  split
  · exact .inl rfl
  · rename_i hlen
    split
    · rename_i hcheck
      split
      · rename_i a hdec
        refine .inr ⟨bytes.take 8, _, (bytes.drop 8).drop (ofLe (bytes.take 4)), a, ?_,
          by simp; omega, ?_, ?_, hdec⟩
        · rw [List.append_assoc, List.take_append_drop, List.take_append_drop]
        · rw [List.take_take, List.length_take, Nat.min_eq_left (by omega : 4 ≤ 8)]
          omega
        · rw [hcheck, List.drop_take]
      · exact .inl rfl
    · exact .inl rfl

/-- **Cut back to what was read, a log reads on**: what follows is read as if it stood alone. -/
theorem scan_take_append (bytes rest : List UInt8) :
    scan decode checksum (bytes.take (scan decode checksum bytes).2 ++ rest) =
      ((scan decode checksum bytes).1 ++ (scan decode checksum rest).1,
        (scan decode checksum bytes).2 + (scan decode checksum rest).2) := by
  induction hn : bytes.length using Nat.strongRecOn generalizing bytes with
  | _ n ih =>
    rcases @scan_cases _ decode checksum bytes with h | ⟨header, payload, tail, a, rfl, ha⟩
    · simp [h]
    · have hlen : (header ++ payload).length = 8 + payload.length := by
        rw [List.length_append, ha.eight]
      rw [ha.scan tail]
      dsimp only
      rw [← hlen, List.take_length_add_append, List.append_assoc, ha.scan,
        ih tail.length _ tail rfl]
      · simp [hlen, Nat.add_assoc]
      · rw [← hn, List.length_append, hlen]
        omega

/-- A reader does not read past the end. -/
theorem scan_snd_le (bytes : List UInt8) : (scan decode checksum bytes).2 ≤ bytes.length := by
  induction hn : bytes.length using Nat.strongRecOn generalizing bytes with
  | _ n ih =>
    rcases @scan_cases _ decode checksum bytes with h | ⟨header, payload, tail, a, rfl, ha⟩
    · simp [h]
    · rw [ha.scan tail, ← hn]
      have hh := ha.eight
      have := ih tail.length (by simp at hn; omega) tail rfl
      simp only [List.length_append]
      omega

end

end Machinery.RecordLog
