import Xzero.Library.Framing
import Xzero.Util.Buffer

/-!
# FastCGI records

`xzero/http/fastcgi/bits.h`: a record has a header of eight bytes, with the type, the id of the
request and the lengths of the content and of the padding, and then these. The parsers of requests
and of responses take complete records off the front of what they are given, and leave the rest.

A parser looks neither at the version nor at the reserved byte, nor at what is in the padding. **The
records that are written are frames of this decoder** (`Record.frames_bytes`), so how they are cut
into fragments does not matter.
-/

namespace Xzero.Http.FastCgi

open List Util Except UInt8

/-- `Type`. -/
inductive RecordType
  | beginRequest | abortRequest | endRequest | params | stdIn | stdOut | stdErr | data | getValues
  | getValuesResult | unknownType
  deriving DecidableEq, Repr

def RecordType.code : RecordType → UInt8
  | beginRequest => 1
  | abortRequest => 2
  | endRequest => 3
  | params => 4
  | stdIn => 5
  | stdOut => 6
  | stdErr => 7
  | data => 8
  | getValues => 9
  | getValuesResult => 10
  | unknownType => 11

/-- `Record`, with its content. A peer may send any type. -/
structure Record where
  type : UInt8
  requestId : UInt16
  content : Bytes
  paddingLength : UInt8
  /-- The length is a `uint16_t`. -/
  length_lt : content.length < 2 ^ 16
  deriving DecidableEq, Repr

/-- `htons`: the two bytes of a number, the higher one first. -/
def bigEndian (n : ℕ) : Bytes := [ofNat (n / 256), ofNat n]

namespace Record

def size (r : Record) : ℕ := 8 + r.content.length + r.paddingLength.toNat

/-- The header of a record that is written. -/
def header (r : Record) : Bytes :=
  [1, r.type] ++ bigEndian r.requestId.toNat ++ bigEndian r.content.length ++ [r.paddingLength, 0]

def bytes (r : Record) : Bytes :=
  r.header ++ r.content ++ replicate r.paddingLength.toNat 0

/-- The first record, and what follows it. -/
def next : Bytes → Option (Record × Bytes)
  | _ :: type :: id₁ :: id₀ :: length₁ :: length₀ :: padding :: _ :: rest =>
    let length := length₁.toNat * 256 + length₀.toNat
    if rest.length < length + padding.toNat then none
    else
      some ({
          type := type
          requestId := UInt16.ofNat (id₁.toNat * 256 + id₀.toNat)
          content := rest.take length
          paddingLength := padding
          length_lt := by
            have h₁ := length₁.toNat_lt
            have h₀ := length₀.toNat_lt
            rw [length_take]
            omega },
        rest.drop (length + padding.toNat))
  | _ => none

theorem next_of_short {bs : Bytes} (h : bs.length < 8) : next bs = none := by
  unfold next
  split
  · simp only [length_cons] at h
    omega
  · rfl

theorem length_header (r : Record) : r.header.length = 8 := rfl

theorem length_bytes (r : Record) : r.bytes.length = r.size := by
  rw [bytes, length_append, length_append, length_header, length_replicate, size]

theorem ofNat_bigEndian {n : ℕ} (h : n < 2 ^ 16) :
    (ofNat (n / 256)).toNat * 256 + (ofNat n).toNat = n := by
  rw [toNat_ofNat', toNat_ofNat']
  omega

theorem next_header (r : Record) (rest : Bytes) : next (r.header ++ rest) =
    if rest.length < r.content.length + r.paddingLength.toNat then none
    else some ({ r with
        content := rest.take r.content.length
        length_lt := lt_of_le_of_lt (length_take_le _ _) r.length_lt },
      rest.drop (r.content.length + r.paddingLength.toNat)) := by
  show next (1 :: r.type :: _ :: _ :: _ :: _ :: r.paddingLength :: 0 :: rest) = _
  simp only [next, ofNat_bigEndian r.length_lt, ofNat_bigEndian r.requestId.toNat_lt,
    UInt16.ofNat_toNat]

/-- The step that takes one record off. -/
def decoder : FrameDecoder UInt8 Record Empty where
  next bs := .ok (next bs)
  next_nil := rfl
  length_lt := by
    intro bs r rest h
    replace h := ok.inj h
    unfold next at h
    split at h
    · simp only at h
      split_ifs at h
      obtain ⟨-, rfl⟩ := Prod.ext_iff.1 (Option.some.inj h)
      simp only [length_cons, length_drop]
      omega
    · cases h

/-- **A record that is written is a frame.** -/
theorem frames_bytes (r : Record) : decoder.Frames r.bytes r := by
  constructor
  · intro rest
    show ok (next (r.bytes ++ rest)) = _
    rw [bytes, append_assoc, append_assoc, next_header, if_neg (by simp)]
    have hdrop : (r.content ++ (replicate r.paddingLength.toNat 0 ++ rest)).drop
        (r.content.length + r.paddingLength.toNat) = rest := by
      rw [← append_assoc, drop_left' (by simp)]
    simp only [take_left, hdrop]
  · intro p q hpq hq
    show ok (next p) = _
    rw [bytes, append_assoc] at hpq
    by_cases hshort : p.length < 8
    · rw [next_of_short hshort]
    · obtain ⟨t, rfl⟩ : r.header <+: p :=
        prefix_of_prefix_length_le ⟨_, rfl⟩ ⟨q, hpq.symm⟩ (Nat.not_lt.1 hshort)
      rw [append_assoc, append_cancel_left_eq] at hpq
      have hlength := congrArg length hpq
      have hpos := length_pos_iff.2 hq
      rw [length_append, length_append, length_replicate] at hlength
      rw [next_header, if_pos (by omega)]

end Record

end Xzero.Http.FastCgi
