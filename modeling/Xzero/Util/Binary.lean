import Xzero.Library.Bits
import Xzero.Library.Reader

/-!
# The binary reader and writer

`xzero/util/BinaryWriter.cc` and `xzero/util/BinaryReader.cc`: unsigned integers in groups of seven
bits, lowest first, every byte but the last with its high bit set, and byte sequences behind their
length. A reader's state is what lies between `begin_` and `end_`; `RAISE` is an error.

**What is written is read back** (`reads_parseVarUInt`, `reads_parseLengthDelimited`), and a number
that has not arrived completely is recognised as such (`tryParseVarUInt_part`).
-/

namespace Xzero.Util

open List

/-- What the parsers raise: the exception's class, with its message. -/
inductive RuntimeError
  | ioError (message : String)
  | protocolError (message : String)
  /-- The source's behaviour is undefined here. -/
  | undefined
  deriving DecidableEq, Repr

/-- A `BinaryReader`'s methods work on the bytes between `begin_` and `end_`. -/
abbrev BinaryReader := Reader UInt8 RuntimeError

/-! ### Variable-length integers -/

def writeVarUInt (value : ℕ) : List UInt8 :=
  if 0 < value >>> 7 then UInt8.ofNat (value &&& 0x7f ||| 0x80) :: writeVarUInt (value >>> 7)
  else [UInt8.ofNat (value &&& 0x7f)]
termination_by value
decreasing_by
  rw [Nat.shiftRight_eq_div_pow] at *
  omega

/-- The loop of `BinaryReader::tryParseVarUInt`; `result` is a `uint64_t`. -/
def parseVarUIntLoop (result i : ℕ) : List UInt8 → Option (ℕ × List UInt8)
  | [] => none
  | byte :: rest =>
    let result := (result ||| (byte.toNat &&& 0x7f) <<< (7 * i)) % 2 ^ 64
    if byte.toNat &&& 0x80 = 0 then some (result, rest) else parseVarUIntLoop result (i + 1) rest

/-- `BinaryReader::tryParseVarUInt`: without a complete number the position is restored. -/
def tryParseVarUInt : BinaryReader (Option ℕ) := fun bytes ↦
  match parseVarUIntLoop 0 0 bytes with
  | some (n, rest) => .ok (some n, rest)
  | none => .ok (none, bytes)

def parseVarUInt : BinaryReader ℕ := do
  match ← tryParseVarUInt with
  | some n => return n
  | none => throw (.ioError "Not enough data.")

/-! ### Byte sequences -/

/-- `BinaryWriter::writeLengthDelimited`, and `writeString` on a string's bytes. -/
def writeLengthDelimited (data : List UInt8) : List UInt8 := writeVarUInt data.length ++ data

/-- `BinaryReader::parseLengthDelimited`, and `parseString` for a string's bytes. -/
def parseLengthDelimited : BinaryReader (List UInt8) := do
  let len ← parseVarUInt
  let pending ← get
  if pending.length < len then
    throw (.ioError "Not enough data.")
  else
    set (pending.drop len)
    return pending.take len

/-! ### The bytes of a number -/

theorem or_0x80 {n : ℕ} (h : n < 128) : n ||| 0x80 = n + 128 := by
  exact Nat.or_shiftLeft_eq_add (k := 7) h 1

theorem and_0x80 {n : ℕ} (h : n < 256) : n &&& 0x80 = 0 ↔ n < 128 := by
  have key : ∀ i : Fin 256, i.val &&& 0x80 = 0 ↔ i.val < 128 := by decide +kernel
  exact key ⟨n, h⟩

theorem and_0x7f (n : ℕ) : n &&& 0x7f = n % 128 := Nat.and_two_pow_sub_one_eq_mod n 7

theorem writeVarUInt_of_lt {n : ℕ} (h : n < 128) : writeVarUInt n = [UInt8.ofNat n] := by
  have hshift : n >>> 7 = 0 := by
    rw [Nat.shiftRight_eq_div_pow]
    omega
  rw [writeVarUInt, hshift, if_neg (Nat.lt_irrefl 0), and_0x7f, Nat.mod_eq_of_lt h]

theorem writeVarUInt_of_le {n : ℕ} (h : 128 ≤ n) :
    writeVarUInt n = UInt8.ofNat (n % 128 + 128) :: writeVarUInt (n / 128) := by
  have hshift : n >>> 7 = n / 128 := Nat.shiftRight_eq_div_pow n 7
  rw [writeVarUInt, hshift, if_pos (by omega), and_0x7f, or_0x80 (by omega)]

/-! ### Reading a number back -/

theorem parseVarUIntLoop_last {result i d : ℕ} (hd : d < 128) (rest : List UInt8) :
    parseVarUIntLoop result i (UInt8.ofNat d :: rest) =
      some ((result ||| d <<< (7 * i)) % 2 ^ 64, rest) := by
  have hbyte : (UInt8.ofNat d).toNat = d := UInt8.toNat_ofNat_of_lt' (show d < 256 by omega)
  simp only [parseVarUIntLoop, hbyte, and_0x7f, Nat.mod_eq_of_lt hd,
    (and_0x80 (by omega : d < 256)).2 hd, if_true]

theorem parseVarUIntLoop_more {result i d : ℕ} (hd : d < 128) (rest : List UInt8) :
    parseVarUIntLoop result i (UInt8.ofNat (d + 128) :: rest) =
      parseVarUIntLoop ((result ||| d <<< (7 * i)) % 2 ^ 64) (i + 1) rest := by
  have hbyte : (UInt8.ofNat (d + 128)).toNat = d + 128 :=
    UInt8.toNat_ofNat_of_lt' (show d + 128 < 256 by omega)
  have hmark : ¬ (d + 128 &&& 0x80 = 0) := by
    rw [and_0x80 (by omega)]
    omega
  have hlow : (d + 128) % 128 = d := by omega
  simp only [parseVarUIntLoop, hbyte, and_0x7f, hmark, hlow, if_false]

/-- The loop picks up a number where its bytes begin, above the bits it already has. -/
theorem parseVarUIntLoop_write (n : ℕ) {result i : ℕ} (hres : result < 2 ^ (7 * i))
    (hfit : result + n * 2 ^ (7 * i) < 2 ^ 64) (rest : List UInt8) :
    parseVarUIntLoop result i (writeVarUInt n ++ rest) = some (result + n * 2 ^ (7 * i), rest) := by
  induction n using Nat.strongRecOn generalizing result i with
  | ind n ih =>
    rcases lt_or_ge n 128 with hlt | hge
    · rw [writeVarUInt_of_lt hlt, singleton_append, parseVarUIntLoop_last hlt,
        Nat.or_shiftLeft_eq_add hres, Nat.mod_eq_of_lt hfit]
    · have hpow : 2 ^ (7 * (i + 1)) = 128 * 2 ^ (7 * i) := by
        rw [Nat.mul_succ, Nat.pow_add, Nat.mul_comm]
      have hsplit : n * 2 ^ (7 * i) = n % 128 * 2 ^ (7 * i) + n / 128 * (128 * 2 ^ (7 * i)) := by
        rw [← Nat.mul_assoc, ← Nat.add_mul, Nat.mul_comm (n / 128), Nat.mod_add_div]
      have hlow : n % 128 * 2 ^ (7 * i) ≤ 127 * 2 ^ (7 * i) :=
        Nat.mul_le_mul_right _ (by omega)
      rw [writeVarUInt_of_le hge, cons_append, parseVarUIntLoop_more (by omega),
        Nat.or_shiftLeft_eq_add hres, Nat.mod_eq_of_lt (by omega),
        ih (n / 128) (by omega) (by omega) (by rw [hpow]; omega), hpow]
      congr 2
      omega

theorem parseVarUIntLoop_part (n : ℕ) {p q : List UInt8} (h : writeVarUInt n = p ++ q) (hq : q ≠ [])
    (result i : ℕ) : parseVarUIntLoop result i p = none := by
  induction n using Nat.strongRecOn generalizing p result i with
  | ind n ih =>
    rcases p with - | ⟨byte, p⟩
    · rfl
    · rcases lt_or_ge n 128 with hlt | hge
      · rw [writeVarUInt_of_lt hlt, cons_append] at h
        obtain ⟨-, htail⟩ := cons_eq_cons.1 h
        exact absurd (append_eq_nil_iff.1 htail.symm).2 hq
      · rw [writeVarUInt_of_le hge, cons_append] at h
        obtain ⟨rfl, htail⟩ := cons_eq_cons.1 h
        rw [parseVarUIntLoop_more (by omega)]
        exact ih (n / 128) (by omega) htail _ _

theorem parseVarUIntLoop_suffix {bytes rest : List UInt8} {result i n : ℕ}
    (h : parseVarUIntLoop result i bytes = some (n, rest)) :
    rest <:+ bytes ∧ rest.length < bytes.length := by
  induction bytes generalizing result i with
  | nil => cases h
  | cons byte bytes ih =>
    rw [parseVarUIntLoop] at h
    split at h
    · cases h
      exact ⟨suffix_cons byte _, Nat.lt_succ_self _⟩
    · obtain ⟨hsuffix, hlen⟩ := ih h
      exact ⟨hsuffix.trans (suffix_cons byte bytes), Nat.lt_succ_of_lt hlen⟩

/-- **A number that was written is read back**, and nothing after it is touched. -/
theorem reads_tryParseVarUInt {n : ℕ} (h : n < 2 ^ 64) :
    tryParseVarUInt.Reads (writeVarUInt n) (some n) := by
  intro rest
  have hloop := @parseVarUIntLoop_write n 0 0 (by decide) (by omega) rest
  simp only [mul_zero, pow_zero, mul_one, zero_add] at hloop
  simp only [tryParseVarUInt, StateT.run, hloop]

theorem reads_parseVarUInt {n : ℕ} (h : n < 2 ^ 64) : parseVarUInt.Reads (writeVarUInt n) n := by
  rw [← append_nil (writeVarUInt n)]
  exact (reads_tryParseVarUInt h).bind (Reader.Reads.pure n)

theorem tryParseVarUInt_part {n : ℕ} {p q : List UInt8} (h : writeVarUInt n = p ++ q)
    (hq : q ≠ []) : tryParseVarUInt.run p = .ok (none, p) := by
  simp only [tryParseVarUInt, StateT.run, parseVarUIntLoop_part n h hq]

theorem reads_parseLengthDelimited {data : List UInt8} (h : data.length < 2 ^ 64) :
    parseLengthDelimited.Reads (writeLengthDelimited data) data := by
  refine (reads_parseVarUInt h).bind fun rest ↦ ?_
  show (if (data ++ rest).length < data.length then _ else _ : BinaryReader _).run _ = _
  rw [if_neg (by simp)]
  simp
  rfl

/-! ### Readers take from the front only -/

theorem shrinks_tryParseVarUInt : tryParseVarUInt.Shrinks := by
  intro bytes a rest h
  simp only [tryParseVarUInt, StateT.run] at h
  split at h
  · next n mid hloop =>
    cases h
    exact (parseVarUIntLoop_suffix hloop).1
  · cases h
    exact suffix_refl _

theorem shrinks_parseVarUInt : parseVarUInt.Shrinks := by
  refine shrinks_tryParseVarUInt.bind fun n ↦ ?_
  rcases n with - | n
  · exact Reader.Shrinks.throw _
  · exact Reader.Shrinks.pure n

theorem shrinks_parseLengthDelimited : parseLengthDelimited.Shrinks := by
  refine shrinks_parseVarUInt.bind fun len bytes a rest h ↦ ?_
  by_cases hlen : bytes.length < len
  · simp [hlen] at h
    cases h
  · simp [hlen] at h
    cases h
    exact drop_suffix len bytes

end Xzero.Util
