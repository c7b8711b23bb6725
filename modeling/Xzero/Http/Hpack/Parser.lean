import Xzero.Http.Hpack.Generator

/-!
# The HPACK parser

`xzero::http::hpack::Parser` goes through a header block and emits the fields. Its iterators are
readers on the rest of the block. Behaviour that is undefined is an error here: a byte behind the
end of the block, a shift by more bits than there are, and a name that the dynamic table has just
evicted.
-/

namespace Xzero.Http.Hpack

open List Util

/-- What a parser raises. -/
inductive ParserError
  | compressionError (what : String)
  | internalError (what : String)
  | notImplementedError (what : String)
  /-- The source's behaviour is undefined here. -/
  | undefined
  deriving DecidableEq, Repr

/-- What goes from one position to another. -/
abbrev FieldReader := Reader UInt8 ParserError

/-- `Parser`, without the emitter. -/
structure Parser where
  maxSize : ℕ
  dynamicTable : DynamicTable
  deriving DecidableEq, Repr

namespace Parser

/-- The loop of `decodeInt`; a byte is shifted as an `int`. -/
def decodeIntLoop (output : BitVec 64) (shift : ℕ) : Bytes → Except ParserError (BitVec 64 × Bytes)
  | [] => .error (.compressionError "Need more data")
  | octet :: rest =>
    if 32 ≤ shift then .error .undefined
    else
      let output := output + (BitVec.ofNat 32 (octet.toNat &&& 0x7f) <<< shift).signExtend 64
      if octet.toNat &&& 0x80 = 0 then .ok (output, rest) else decodeIntLoop output (shift + 7) rest

def decodeInt (prefixBits : ℕ) : FieldReader ℕ := fun bytes ↦
  if ¬(1 ≤ prefixBits ∧ prefixBits ≤ 8) then
    .error (.internalError "prefixBits must be between 0 and 8 (not %u)")
  else
    match bytes with
    | [] => .error (.compressionError "Need more data")
    | octet :: rest =>
      let output := octet.toNat &&& (2 ^ prefixBits - 1)
      if output < 2 ^ prefixBits - 1 then .ok (output, rest)
      else (decodeIntLoop (BitVec.ofNat 64 output) 0 rest).map fun r ↦ (r.1.toNat, r.2)

def take (slen : ℕ) : FieldReader Bytes := fun bytes ↦
  if bytes.length < slen then .error (.compressionError "Need more data")
  else .ok (bytes.take slen, bytes.drop slen)

def isCompressed : FieldReader Bool := fun bytes ↦
  match bytes with
  | [] => .error .undefined
  | octet :: _ => .ok (octet.toNat &&& 0x80 ≠ 0, bytes)

def decodeString : FieldReader Bytes := do
  let compressed ← isCompressed
  let slen ← decodeInt 7
  let output ← take slen
  if compressed then throw (.notImplementedError "Huffman decoding not implemented yet")
  else return output

/-- `at`. -/
def at? (t : DynamicTable) (index : ℕ) : Except ParserError TableEntry :=
  if index = 0 then .error (.compressionError "Invalid index (must not be 0)")
  else
    match StaticTable.at? (index - 1) with
    | some entry => .ok entry
    | none =>
      match t.entries[index - 1 - StaticTable.length]? with
      | some entry => .ok entry
      | none => .error (.compressionError "Index out of bounds")

/-- A name that is indexed, or a literal if the index is zero. -/
def decodeName (t : DynamicTable) (index : ℕ) : FieldReader Bytes :=
  if index ≠ 0 then StateT.lift ((at? t index).map Prod.fst) else decodeString

def indexedHeaderField (p : Parser) : FieldReader (List HeaderField × Parser) := do
  let index ← decodeInt 7
  let field ← StateT.lift (at? p.dynamicTable index)
  return ([⟨field.1, field.2, false⟩], p)

/-- Whether a name that is indexed is still there after a field was added. -/
def isAlive (index : ℕ) (t : DynamicTable) : Bool :=
  index ≤ StaticTable.length || index - 1 - StaticTable.length + 1 < t.entries.length

def incrementalIndexedField (p : Parser) : FieldReader (List HeaderField × Parser) := do
  let index ← decodeInt 6
  let name ← decodeName p.dynamicTable index
  let value ← decodeString
  match p.dynamicTable.add name value with
  | some t =>
    if isAlive index t then return ([⟨name, value, false⟩], { p with dynamicTable := t })
    else throw .undefined
  | none => throw .undefined

def updateTableSize (p : Parser) : FieldReader (List HeaderField × Parser) := do
  let newMaxSize ← decodeInt 5
  if p.maxSize < newMaxSize then
    throw (.compressionError "Received a MAX_SIZE value larger than allowed.")
  else
    match p.dynamicTable.setMaxSize newMaxSize with
    | some t => return ([], { p with dynamicTable := t })
    | none => throw .undefined

/-- A literal that does not go to the dynamic table. -/
def literalHeader (sensitive : Bool) (p : Parser) : FieldReader (List HeaderField × Parser) := do
  let index ← decodeInt 4
  let name ← decodeName p.dynamicTable index
  let value ← decodeString
  return ([⟨name, value, sensitive⟩], p)

def literalHeaderNoIndex : Parser → FieldReader (List HeaderField × Parser) := literalHeader false

def literalHeaderNeverIndex : Parser → FieldReader (List HeaderField × Parser) := literalHeader true

/-- One round of the loop of `parse`, on a block that begins with an octet. -/
def field (p : Parser) (octet : UInt8) : FieldReader (List HeaderField × Parser) :=
  if octet.toNat &&& 0x80 ≠ 0 then p.indexedHeaderField
  else if octet.toNat &&& 0x40 ≠ 0 then p.incrementalIndexedField
  else if octet.toNat &&& 0x20 ≠ 0 then p.updateTableSize
  else if octet.toNat &&& 0x10 ≠ 0 then p.literalHeaderNeverIndex
  else p.literalHeaderNoIndex

/-! ### Every field takes bytes -/

/-- The reader takes at least one byte. -/
def Takes {α : Type} (r : FieldReader α) : Prop :=
  ∀ ⦃bytes a rest⦄, r.run bytes = .ok (a, rest) → rest.length < bytes.length

theorem Takes.bind {α β : Type} {r : FieldReader α} {f : α → FieldReader β} (hr : Takes r)
    (hf : ∀ a, (f a).Shrinks) : Takes (r >>= f) := by
  intro bytes b rest h
  rw [StateT.run_bind] at h
  rcases hrun : r.run bytes with e | ⟨a, mid⟩
  · rw [hrun] at h
    cases h
  · rw [hrun] at h
    exact ((hf a h).length_le).trans_lt (hr hrun)

theorem decodeIntLoop_suffix {output : BitVec 64} {shift : ℕ} {bytes rest : Bytes} {n : BitVec 64}
    (h : decodeIntLoop output shift bytes = .ok (n, rest)) : rest <:+ bytes := by
  induction bytes generalizing output shift with
  | nil => cases h
  | cons octet bytes ih =>
    rw [decodeIntLoop] at h
    split at h
    · cases h
    · split at h
      · cases h
        exact suffix_cons _ _
      · exact (ih h).trans (suffix_cons _ _)

theorem decodeInt_suffix {prefixBits n : ℕ} {bytes rest : Bytes}
    (h : (decodeInt prefixBits).run bytes = .ok (n, rest)) :
    rest <:+ bytes ∧ rest.length < bytes.length := by
  change decodeInt prefixBits bytes = _ at h
  unfold decodeInt at h
  split at h
  · cases h
  · rcases bytes with - | ⟨octet, bytes⟩
    · cases h
    · dsimp only at h
      split at h
      · cases h
        exact ⟨suffix_cons _ _, Nat.lt_succ_self _⟩
      · rcases hloop : decodeIntLoop (BitVec.ofNat 64 (octet.toNat &&& (2 ^ prefixBits - 1))) 0 bytes with
          e | ⟨n', rest'⟩
        · rw [hloop] at h
          cases h
        · rw [hloop] at h
          cases h
          have hsuffix := decodeIntLoop_suffix hloop
          exact ⟨hsuffix.trans (suffix_cons _ _), Nat.lt_succ_of_le hsuffix.length_le⟩

theorem takes_decodeInt (prefixBits : ℕ) : Takes (decodeInt prefixBits) :=
  fun _ _ _ h ↦ (decodeInt_suffix h).2

theorem shrinks_decodeInt (prefixBits : ℕ) : (decodeInt prefixBits).Shrinks :=
  fun _ _ _ h ↦ (decodeInt_suffix h).1

theorem shrinks_lift {α : Type} (r : Except ParserError α) : Reader.Shrinks (StateT.lift r : FieldReader α) := by
  intro bytes a rest h
  rcases r with e | b
  · cases h
  · cases h
    exact suffix_refl _

theorem shrinks_decodeString : decodeString.Shrinks := by
  refine .bind ?_ fun compressed ↦ .bind (shrinks_decodeInt 7) fun slen ↦ .bind ?_ fun output ↦ ?_
  · rintro (- | ⟨octet, bytes⟩) a rest h
    · cases h
    · cases h
      exact suffix_refl _
  · intro bytes a rest h
    change take slen bytes = _ at h
    rw [take] at h
    split at h
    · cases h
    · cases h
      exact drop_suffix _ _
  · split
    · exact .throw _
    · exact .pure _

theorem shrinks_decodeName (t : DynamicTable) (index : ℕ) : (decodeName t index).Shrinks := by
  rw [decodeName]
  split
  · exact shrinks_lift _
  · exact shrinks_decodeString

/-- **Every field takes bytes.** -/
theorem takes_field (p : Parser) (octet : UInt8) : Takes (p.field octet) := by
  have hliteral (sensitive : Bool) : Takes (literalHeader sensitive p) :=
    (takes_decodeInt 4).bind fun index ↦ .bind (shrinks_decodeName _ index) fun _ ↦
      .bind shrinks_decodeString fun _ ↦ .pure _
  rw [field]
  split_ifs
  · exact (takes_decodeInt 7).bind fun _ ↦ .bind (shrinks_lift _) fun _ ↦ .pure _
  · refine (takes_decodeInt 6).bind fun index ↦ .bind (shrinks_decodeName _ index) fun name ↦
      .bind shrinks_decodeString fun value ↦ ?_
    split
    · split
      · exact .pure _
      · exact .throw _
    · exact .throw _
  · refine (takes_decodeInt 5).bind fun newMaxSize ↦ ?_
    split
    · exact .throw _
    · split
      · exact .pure _
      · exact .throw _
  · exact hliteral true
  · exact hliteral false

/-- `parse`: the fields that are emitted, and the parser after that. -/
def parse (p : Parser) (headerBlock : Bytes) : Except ParserError (List HeaderField × Parser) :=
  match headerBlock with
  | [] => .ok ([], p)
  | octet :: rest =>
    match _hfield : (p.field octet).run (octet :: rest) with
    | .error e => .error e
    | .ok ((fields, p'), rest') => (p'.parse rest').map fun r ↦ (fields ++ r.1, r.2)
termination_by headerBlock.length
decreasing_by exact takes_field p octet ‹_›

theorem parse_nil (p : Parser) : p.parse [] = .ok ([], p) := by
  rw [parse]

theorem parse_cons {p p' : Parser} {octet : UInt8} {rest rest' : Bytes} {fields : List HeaderField}
    (h : (p.field octet).run (octet :: rest) = .ok ((fields, p'), rest')) :
    p.parse (octet :: rest) = (p'.parse rest').map fun r ↦ (fields ++ r.1, r.2) := by
  rw [parse]
  split
  · next e heq =>
    rw [h] at heq
    cases heq
  · next heq =>
    rw [h] at heq
    cases heq
    rfl

end Parser

end Xzero.Http.Hpack
