import Xzero.Http.Hpack.Parser

/-!
# Header blocks from a generator to a parser

The generator and the parser each have a dynamic table. **As long as every call is a good one, the
parser emits the fields that were written, and the tables are the same after every block**
(`roundTrips_of_good`). What makes a call a bad one are three defects of the generator
(`Generator.Good`): an index into the dynamic table is written one too low, a number that does not
fit behind its suffix is written without it, and `nameValueMatch` may be read before it is written.
-/

namespace Xzero.Http.Hpack

open List Util Option StaticTable Except DynamicTable UInt8

variable {rest w : Bytes}

/-! ### Numbers and strings -/

namespace Generator

theorem encodeIntLoop_eq (n : ℕ) : encodeIntLoop n = writeVarUInt n := by
  induction n using Nat.strong_induction_on with
  | _ n ih =>
    rw [encodeIntLoop]
    split
    · next hlt =>
      rw [ih (n >>> 7) (by rw [Nat.shiftRight_eq_div_pow]; omega), writeVarUInt_of_le hlt, and_0x7f,
        Nat.or_comm, or_0x80 (Nat.mod_lt n (by decide)), Nat.shiftRight_eq_div_pow]
    · next hle => rw [writeVarUInt_of_lt (by omega)]

theorem toNat_first {suffix prefixBits value : ℕ} (hvalue : value < 2 ^ prefixBits)
    (hbyte : suffix * 2 ^ prefixBits + value < 256) :
    (ofNat (suffix <<< prefixBits ||| value)).toNat = suffix * 2 ^ prefixBits + value := by
  have hor : suffix <<< prefixBits ||| value = suffix * 2 ^ prefixBits + value := by
    rw [Nat.or_comm, Nat.or_shiftLeft_eq_add hvalue, Nat.add_comm]
  rw [hor]
  exact toNat_ofNat_of_lt' hbyte

end Generator

namespace Parser

open Generator

theorem signExtend_shiftLeft {d shift : ℕ} (h : d * 2 ^ shift < 2 ^ 31) :
    (BitVec.ofNat 32 d <<< shift).signExtend 64 = BitVec.ofNat 64 (d * 2 ^ shift) := by
  have heq : BitVec.ofNat 32 d <<< shift = BitVec.ofNat 32 (d * 2 ^ shift) := by
    refine BitVec.eq_of_toNat_eq ?_
    rw [BitVec.toNat_shiftLeft, BitVec.toNat_ofNat, BitVec.toNat_ofNat, Nat.shiftLeft_eq, Nat.mod_mul_mod]
  refine BitVec.eq_of_toInt_eq ?_
  rw [heq, BitVec.toInt_signExtend_of_le (by decide), BitVec.toInt_ofNat', BitVec.toInt_ofNat',
    Int.bmod_eq_of_le (by omega) (by omega), Int.bmod_eq_of_le (by omega) (by omega)]

theorem decodeIntLoop_write (n : ℕ) (output : BitVec 64) {i : ℕ} (hi : 7 * i < 32)
    (hfit : n * 2 ^ (7 * i) < 2 ^ 31) (rest : Bytes) :
    decodeIntLoop output (7 * i) (encodeIntLoop n ++ rest) =
      .ok (output + BitVec.ofNat 64 (n * 2 ^ (7 * i)), rest) := by
  rw [encodeIntLoop_eq]
  induction n using Nat.strong_induction_on generalizing output i with
  | _ n ih =>
    rcases Nat.lt_or_ge n 128 with hlt | hge
    · have hbyte : (ofNat n).toNat = n := toNat_ofNat_of_lt' (show n < 256 by omega)
      rw [writeVarUInt_of_lt hlt, singleton_append, decodeIntLoop, if_neg (by omega)]
      simp only [hbyte, and_0x7f, Nat.mod_eq_of_lt hlt, (and_0x80 (by omega : n < 256)).2 hlt, if_true,
        signExtend_shiftLeft hfit]
    · have hbyte : (ofNat (n % 128 + 128)).toNat = n % 128 + 128 :=
        toNat_ofNat_of_lt' (show n % 128 + 128 < 256 by omega)
      have hmark : ¬(n % 128 + 128 &&& 0x80 = 0) := by
        rw [and_0x80 (by omega)]
        omega
      have hlow : (n % 128 + 128) % 128 = n % 128 := by omega
      have hpow : 2 ^ (7 * (i + 1)) = 128 * 2 ^ (7 * i) := by
        rw [Nat.mul_succ, Nat.pow_add, Nat.mul_comm]
      have hsplit : n * 2 ^ (7 * i) = n % 128 * 2 ^ (7 * i) + n / 128 * 2 ^ (7 * (i + 1)) := by
        rw [hpow, ← Nat.mul_assoc, ← Nat.add_mul, Nat.mul_comm (n / 128), Nat.mod_add_div]
      have hpos : 2 ^ (7 * (i + 1)) ≤ n / 128 * 2 ^ (7 * (i + 1)) :=
        Nat.le_mul_of_pos_left _ (by omega)
      have hi' : 7 * (i + 1) < 32 := by
        refine Nat.lt_of_lt_of_le ((Nat.pow_lt_pow_iff_right (a := 2) (by decide)).1 ?_) (by decide : 31 ≤ 32)
        omega
      rw [writeVarUInt_of_le hge, cons_append, decodeIntLoop, if_neg (by omega)]
      simp only [hbyte, and_0x7f, hlow, hmark, if_false, signExtend_shiftLeft (show n % 128 * 2 ^ (7 * i) <
        2 ^ 31 by omega)]
      rw [← Nat.mul_succ, ih (n / 128) (by omega) _ hi' (by omega), BitVec.add_assoc, ← BitVec.ofNat_add,
        ← hsplit]

/-- **A number is read back**, whatever its suffix, if it is not too large for an `int`. -/
theorem reads_decodeInt {suffix prefixBits value : ℕ} (hge : 1 ≤ prefixBits) (hle : prefixBits ≤ 8)
    (hvalue : value < 2 ^ prefixBits - 1 + 2 ^ 31) :
    (decodeInt prefixBits).Reads (encodeInt suffix prefixBits value) value := by
  intro rest
  have hpow : 2 ^ prefixBits ≤ 2 ^ 8 := Nat.pow_le_pow_right (by decide) hle
  have hpow' : 2 ^ prefixBits ∣ 256 := pow_dvd_pow 2 hle
  change decodeInt prefixBits (encodeInt suffix prefixBits value ++ rest) = _
  rw [encodeInt]
  split
  · next hlt =>
    have hoctet : (ofNat (suffix <<< prefixBits ||| value)).toNat &&& (2 ^ prefixBits - 1) = value := by
      rw [Nat.and_two_pow_sub_one_eq_mod, toNat_ofNat', Nat.mod_mod_of_dvd _ hpow', Nat.or_comm,
        Nat.or_shiftLeft_eq_add (by omega), Nat.add_mul_mod_self_right, Nat.mod_eq_of_lt (by omega)]
    unfold decodeInt
    rw [if_neg (not_not.2 ⟨hge, hle⟩), singleton_append]
    simp only [hoctet, if_pos hlt]
  · next hnot =>
    have hoctet : (ofNat (2 ^ prefixBits - 1)).toNat &&& (2 ^ prefixBits - 1) = 2 ^ prefixBits - 1 := by
      rw [toNat_ofNat_of_lt' (show 2 ^ prefixBits - 1 < 256 by omega), Nat.and_self]
    have hloop := decodeIntLoop_write (value - (2 ^ prefixBits - 1)) (BitVec.ofNat 64 (2 ^ prefixBits - 1))
      (i := 0) (by decide) (by omega) rest
    rw [Nat.mul_zero, Nat.pow_zero, Nat.mul_one, ← BitVec.ofNat_add, Nat.add_sub_cancel' (by omega)] at hloop
    have hnat : (BitVec.ofNat 64 value).toNat = value := by
      exact Nat.mod_eq_of_lt (by omega)
    unfold decodeInt
    rw [if_neg (not_not.2 ⟨hge, hle⟩), cons_append]
    simp only [hoctet, lt_irrefl, if_false, hloop, Except.map, hnat]

/-- How long a string may be: its length is read as an `int`. -/
def maxLength : ℕ := 127 + 2 ^ 31

theorem exists_cons_encodeInt (suffix prefixBits value : ℕ) (hbits : prefixBits ≤ 7) (hsuffix : suffix ≤ 1) :
    ∃ octet bytes, encodeInt suffix prefixBits value = octet :: bytes ∧
      octet.toNat = if value < 2 ^ prefixBits - 1 then suffix * 2 ^ prefixBits + value
        else 2 ^ prefixBits - 1 := by
  have hpow : 2 ^ prefixBits ≤ 2 ^ 7 := Nat.pow_le_pow_right (by decide) hbits
  have hmul : suffix * 2 ^ prefixBits ≤ 1 * 2 ^ prefixBits := Nat.mul_le_mul_right _ hsuffix
  rw [encodeInt]
  split
  · exact ⟨_, _, rfl, toNat_first (by omega) (by omega)⟩
  · exact ⟨_, _, rfl, toNat_ofNat_of_lt' (show 2 ^ prefixBits - 1 < 256 by omega)⟩

/-- **A string is read back.** -/
theorem reads_decodeString (hw : w.length < maxLength) : decodeString.Reads (encodeString w) w := by
  have hint : (decodeInt 7).Reads (encodeInt 0 7 w.length) w.length := reads_decodeInt (by decide) (by decide) hw
  have htake : (take w.length).Reads w w := by
    intro rest
    change take w.length (w ++ rest) = _
    rw [take, if_neg (by rw [length_append]; omega), take_left, drop_left]
  have hpure : Reader.Reads (do
      let slen ← decodeInt 7
      let output ← take slen
      if false = true then throw (.notImplementedError "Huffman decoding not implemented yet")
      else return output : FieldReader Bytes) (encodeInt 0 7 w.length ++ (w ++ [])) w :=
    hint.bind (htake.bind (.pure w))
  rw [append_nil] at hpure
  intro rest
  obtain ⟨octet, bytes, heq, hoctet⟩ := exists_cons_encodeInt 0 7 w.length (by decide) (by decide)
  have hsmall : octet.toNat &&& 0x80 = 0 := by
    rw [and_0x80 (octet.toNat_lt), hoctet]
    split <;> omega
  have hcompressed : isCompressed.run (encodeString w ++ rest) = .ok (false, encodeString w ++ rest) := by
    rw [encodeString, heq]
    change ok (decide (octet.toNat &&& 0x80 ≠ 0), _) = _
    rw [hsmall]
    rfl
  rw [decodeString, StateT.run_bind, hcompressed]
  exact hpure rest

/-! ### Fields -/

section

variable {p p' p'' : Parser} {bytes bytes' : Bytes} {fields fields' : List HeaderField}
  {name value : Bytes}
  {index : ℕ}

theorem field_eq (p : Parser) (octet : UInt8) : p.field octet =
    if 128 ≤ octet.toNat then p.indexedHeaderField
    else if 64 ≤ octet.toNat then p.incrementalIndexedField
    else if 32 ≤ octet.toNat then p.updateTableSize
    else if 16 ≤ octet.toNat then p.literalHeaderNeverIndex
    else p.literalHeaderNoIndex := by
  have key : ∀ i : Fin 256, (i.val &&& 0x80 ≠ 0 ↔ 128 ≤ i.val) ∧
      (i.val < 128 → (i.val &&& 0x40 ≠ 0 ↔ 64 ≤ i.val)) ∧
      (i.val < 64 → (i.val &&& 0x20 ≠ 0 ↔ 32 ≤ i.val)) ∧
      (i.val < 32 → (i.val &&& 0x10 ≠ 0 ↔ 16 ≤ i.val)) := by decide +kernel
  obtain ⟨h₇, h₆, h₅, h₄⟩ := key ⟨octet.toNat, octet.toNat_lt⟩
  refine if_ctx_congr h₇ (fun _ ↦ rfl) fun h ↦ ?_
  refine if_ctx_congr (h₆ (not_le.1 h)) (fun _ ↦ rfl) fun h ↦ ?_
  refine if_ctx_congr (h₅ (not_le.1 h)) (fun _ ↦ rfl) fun h ↦ ?_
  exact if_ctx_congr (h₄ (not_le.1 h)) (fun _ ↦ rfl) fun _ ↦ rfl

/-- **Bytes that a parser emits fields from**, whatever comes after them. -/
def Emits (p : Parser) (bytes : Bytes) (fields : List HeaderField) (p' : Parser) : Prop :=
  ∀ rest, p.parse (bytes ++ rest) = (p'.parse rest).map fun r ↦ (fields ++ r.1, r.2)

theorem Emits.refl (p : Parser) : Emits p [] [] p := by
  intro rest
  rcases hparse : p.parse rest with e | r
  · exact hparse
  · exact hparse

theorem Emits.trans (h : Emits p bytes fields p') (h' : Emits p' bytes' fields' p'') :
    Emits p (bytes ++ bytes') (fields ++ fields') p'' := by
  intro rest
  rw [append_assoc, h, h']
  rcases p''.parse rest with e | r
  · rfl
  · exact congrArg ok (Prod.ext (append_assoc _ _ _).symm rfl)

theorem Emits.parse_eq (h : Emits p bytes fields p') : p.parse bytes = .ok (fields, p') := by
  have hparse := h []
  rw [append_nil, parse_nil] at hparse
  rw [hparse]
  exact congrArg ok (Prod.ext (append_nil _) rfl)

theorem emits_of_reads {octet : UInt8} (h : (p.field octet).Reads (octet :: bytes) (fields, p')) :
    Emits p (octet :: bytes) fields p' :=
  fun rest ↦ parse_cons (h rest)

variable {t : DynamicTable}

theorem at?_of_static {entry : TableEntry} (h : StaticTable.at? index = some entry) :
    at? t (index + 1) = .ok entry := by
  rw [at?, if_neg (Nat.succ_ne_zero index), Nat.add_sub_cancel, h]

theorem reads_decodeName_of_static (h : StaticTable.at? index = some (name, value)) :
    (decodeName t (index + 1)).Reads [] name := by
  intro rest
  rw [decodeName, if_pos (Nat.succ_ne_zero index), at?_of_static h]
  rfl

theorem reads_decodeName_of_literal (h : name.length < maxLength) :
    (decodeName t 0).Reads (encodeString name) name := by
  exact reads_decodeString h

variable {suffix : ℕ}

theorem reads_index {prefixBits : ℕ} (hge : 1 ≤ prefixBits) (hle : prefixBits ≤ 8)
    (hindex : index ≤ StaticTable.length) :
    (decodeInt prefixBits).Reads (encodeInt suffix prefixBits index) index := by
  refine reads_decodeInt hge hle (lt_of_le_of_lt hindex ?_)
  exact Nat.lt_of_lt_of_le (by decide : StaticTable.length < 2 ^ 31) (Nat.le_add_left _ _)

theorem length_eq : StaticTable.length = 61 := rfl

/-- **An indexed field is emitted.** -/
theorem emits_indexed (hindex : index < StaticTable.length)
    (hat : StaticTable.at? index = some (name, value)) :
    Emits p (encodeInt 1 7 (index + 1)) [⟨name, value, false⟩] p := by
  have hreads : p.indexedHeaderField.Reads (encodeInt 1 7 (index + 1) ++ []) ([⟨name, value, false⟩], p) := by
    refine (reads_index (by decide) (by decide) hindex).bind fun rest ↦ ?_
    rw [StateT.run_bind, at?_of_static hat]
    rfl
  rw [append_nil] at hreads
  obtain ⟨octet, bytes, heq, hoctet⟩ := exists_cons_encodeInt 1 7 (index + 1) (by decide) (by decide)
  rw [length_eq] at hindex
  rw [if_pos (show index + 1 < 2 ^ 7 - 1 by omega)] at hoctet
  rw [heq] at hreads ⊢
  refine emits_of_reads ?_
  rw [field_eq, if_pos (by omega)]
  exact hreads

variable {nameBytes : Bytes}

/-- **A literal that does not go to the dynamic table is emitted.** -/
theorem emits_literal (hsuffix : suffix ≤ 1)
    (hindex : index ≤ StaticTable.length) (hname : (decodeName p.dynamicTable index).Reads nameBytes name)
    (hvalue : value.length < maxLength) :
    ∃ sensitive, Emits p (encodeInt suffix 4 index ++ (nameBytes ++ encodeString value))
      [⟨name, value, sensitive⟩] p := by
  have hreads (sensitive : Bool) : (literalHeader sensitive p).Reads
      (encodeInt suffix 4 index ++ (nameBytes ++ (encodeString value ++ []))) ([⟨name, value, sensitive⟩], p) :=
    (reads_index (by decide) (by decide) hindex).bind (hname.bind ((reads_decodeString hvalue).bind (.pure _)))
  obtain ⟨octet, bytes, heq, hoctet⟩ := exists_cons_encodeInt suffix 4 index (by decide) hsuffix
  have hlt : octet.toNat < 32 := by
    rw [hoctet]
    split <;> omega
  refine ⟨decide (16 ≤ octet.toNat), ?_⟩
  have hreads := hreads (decide (16 ≤ octet.toNat))
  rw [append_nil, heq] at hreads
  rw [heq]
  refine emits_of_reads ?_
  rw [field_eq, if_neg (by omega), if_neg (by omega), if_neg (by omega)]
  split
  · next hge =>
    rw [decide_eq_true hge] at hreads ⊢
    exact hreads
  · next hge =>
    rw [decide_eq_false hge] at hreads ⊢
    exact hreads

/-- **A literal that goes to the dynamic table is emitted.** -/
theorem emits_incremental (hindex : index ≤ StaticTable.length)
    (hname : (decodeName p.dynamicTable index).Reads nameBytes name) (hvalue : value.length < maxLength)
    (hadd : p.dynamicTable.add name value = some t) :
    Emits p (encodeInt 1 6 index ++ (nameBytes ++ encodeString value)) [⟨name, value, false⟩]
      { p with dynamicTable := t } := by
  have halive : isAlive index t = true := by rw [isAlive, decide_eq_true hindex, Bool.true_or]
  have hreads : p.incrementalIndexedField.Reads
      (encodeInt 1 6 index ++ (nameBytes ++ (encodeString value ++ [])))
      ([⟨name, value, false⟩], { p with dynamicTable := t }) := by
    refine (reads_index (by decide) (by decide) hindex).bind (hname.bind ((reads_decodeString hvalue).bind ?_))
    rw [hadd]
    dsimp only
    rw [if_pos halive]
    exact .pure _
  obtain ⟨octet, bytes, heq, hoctet⟩ := exists_cons_encodeInt 1 6 index (by decide) (by decide)
  rw [length_eq] at hindex
  rw [if_pos (show index < 2 ^ 6 - 1 by omega)] at hoctet
  rw [append_nil, heq] at hreads
  rw [heq]
  refine emits_of_reads ?_
  rw [field_eq, if_neg (by omega), if_pos (by omega)]
  exact hreads

/-- **A small maximum size is updated.** -/
theorem emits_update {maxSize : ℕ} (hlt : maxSize < 31) (hle : maxSize ≤ p.maxSize)
    (hset : p.dynamicTable.setMaxSize maxSize = some t) :
    Emits p (encodeInt 1 5 maxSize) [] { p with dynamicTable := t } := by
  have hreads : p.updateTableSize.Reads (encodeInt 1 5 maxSize ++ []) ([], { p with dynamicTable := t }) := by
    refine (reads_decodeInt (by decide) (by decide) (by omega)).bind ?_
    rw [if_neg (not_lt.2 hle), hset]
    exact .pure _
  obtain ⟨octet, bytes, heq, hoctet⟩ := exists_cons_encodeInt 1 5 maxSize (by decide) (by decide)
  rw [if_pos (show maxSize < 2 ^ 5 - 1 by omega)] at hoctet
  rw [append_nil, heq] at hreads
  rw [heq]
  refine emits_of_reads ?_
  rw [field_eq, if_neg (by omega), if_neg (by omega), if_pos (by omega)]
  exact hreads

end

end Parser

/-! ### Calls -/

open Generator (encodeInt encodeString toLower)

/-- The fields of a call, as they should be emitted. -/
def Generator.Call.fields : Generator.Call → List TableEntry
  | .setMaxSize _ => []
  | .header field _ => [(toLower field.name, field.value)]

def entriesOf (fields : List HeaderField) : List TableEntry := fields.map fun field ↦ (field.name, field.value)

/-- **A call that works.** A maximum size fits behind its suffix. Where only the name of a field is
found in the static table, `nameValueMatch` happens to be false. What is not found there is not
found in the dynamic table either. Strings are not too long. -/
def Generator.Good (t : DynamicTable) : Generator.Call → Prop
  | .setMaxSize maxSize => maxSize < 31
  | .header field nameValueMatch =>
    match find (toLower field.name) field.value with
    | some found =>
      found.nameValueMatch = none → nameValueMatch = false ∧ field.value.length < Parser.maxLength
    | none =>
      t.find (toLower field.name) field.value = none ∧
        field.name.length < Parser.maxLength ∧ field.value.length < Parser.maxLength

/-- What a call writes, the parser emits, and the tables stay the same. -/
structure Follows (limit : ℕ) (g : Generator) (fields : List TableEntry) (g' : Generator) : Prop where
  valid : g'.dynamicTable.Valid
  emits : ∃ bytes fields', g'.headerBlock = g.headerBlock ++ bytes ∧ entriesOf fields' = fields ∧
    Parser.Emits ⟨limit, g.dynamicTable⟩ bytes fields' ⟨limit, g'.dynamicTable⟩

section

variable {limit : ℕ} {g g' g'' : Generator} {fields fields' : List TableEntry}

theorem Follows.refl (h : g.dynamicTable.Valid) : Follows limit g [] g :=
  ⟨h, [], [], (append_nil _).symm, rfl, .refl _⟩

theorem Follows.trans (h : Follows limit g fields g') (h' : Follows limit g' fields' g'') :
    Follows limit g (fields ++ fields') g'' := by
  obtain ⟨bytes, emitted, hblock, hfields, hemits⟩ := h.emits
  obtain ⟨bytes', emitted', hblock', hfields', hemits'⟩ := h'.emits
  refine ⟨h'.valid, bytes ++ bytes', emitted ++ emitted', ?_, ?_, hemits.trans hemits'⟩
  · rw [hblock', hblock, append_assoc]
  · rw [entriesOf, map_append]
    exact congrArg₂ _ hfields hfields'

variable {value : Bytes}

/-- A field that is written with a name in front of its value: the name is an index into the static
table or a string. -/
theorem exists_follows {name nameBytes : Bytes} {index : ℕ} {sensitive : Bool}
    (hvalid : g.dynamicTable.Valid) (hindex : index ≤ StaticTable.length)
    (hname : (Parser.decodeName g.dynamicTable index).Reads nameBytes name)
    (hvalue : value.length < Parser.maxLength) :
    ∃ g', (if sensitive then
        some (g.push (encodeInt 1 4 index ++ (nameBytes ++ encodeString value)))
      else if fieldSize (name, value) < g.dynamicTable.maxSize then
        (g.addField name value).map fun g ↦
          g.push (encodeInt 1 6 index ++ (nameBytes ++ encodeString value))
      else some (g.push (encodeInt 0 4 index ++ (nameBytes ++ encodeString value)))) =
        some g' ∧ Follows limit g [(name, value)] g' := by
  have hliteral (suffix : ℕ) (hsuffix : suffix ≤ 1) : Follows limit g [(name, value)] (g.push
      (encodeInt suffix 4 index ++ (nameBytes ++ encodeString value))) := by
    obtain ⟨sensitive, hemits⟩ := Parser.emits_literal (p := ⟨limit, g.dynamicTable⟩) hsuffix hindex hname hvalue
    exact ⟨hvalid, _, _, rfl, rfl, hemits⟩
  split
  · exact ⟨_, rfl, hliteral 1 le_rfl⟩
  · split
    · have hadd := add_eq hvalid name value
      refine ⟨_, by rw [Generator.addField, hadd]; rfl, valid_ofFields _ _, _, _, rfl, rfl,
        Parser.emits_incremental hindex hname hvalue hadd⟩
    · exact ⟨_, rfl, hliteral 0 (Nat.zero_le 1)⟩

/-- **A header is followed.** -/
theorem generateHeader_follows {field : HeaderField} {nameValueMatch : Bool} (hvalid : g.dynamicTable.Valid)
    (hgood : Generator.Good g.dynamicTable (.header field nameValueMatch)) :
    ∃ g', g.generateHeader field nameValueMatch = some g' ∧
      Follows limit g [(toLower field.name, field.value)] g' := by
  rw [Generator.Good] at hgood
  split at hgood
  · next found hfind =>
    obtain ⟨⟨value', hname⟩, hvalue, hfalse⟩ := StaticTable.find_sound hfind
    have hindex := StaticTable.index_lt (StaticTable.find_sound hfind)
    rw [Generator.generateHeader, hfind]
    dsimp only
    rcases hmatch : found.nameValueMatch with - | - | -
    · obtain ⟨rfl, hlength⟩ := hgood hmatch
      have hreads := Parser.reads_decodeName_of_static (t := g.dynamicTable) hname
      exact exists_follows hvalid hindex hreads hlength
    · exact absurd hmatch hfalse
    · exact ⟨_, rfl, hvalid, _, _, rfl, rfl, Parser.emits_indexed hindex (hvalue hmatch)⟩
  · next hfind =>
    obtain ⟨hnone, hlengthName, hlengthValue⟩ := hgood
    have hreads : (Parser.decodeName g.dynamicTable 0).Reads
        (encodeString (toLower field.name)) (toLower field.name) :=
      Parser.reads_decodeName_of_literal (by rwa [toLower, length_map])
    rw [Generator.generateHeader, hfind]
    dsimp only
    rw [hnone]
    -- The bytes that literals begin with are numbers that are zero.
    exact exists_follows hvalid (Nat.zero_le _) hreads hlengthValue

theorem call_follows {c : Generator.Call} (hvalid : g.dynamicTable.Valid)
    (hlimit : ∀ maxSize, c = .setMaxSize maxSize → maxSize ≤ limit) (hgood : Generator.Good g.dynamicTable c) :
    ∃ g', g.call c = some g' ∧ Follows limit g c.fields g' := by
  cases c with
  | setMaxSize maxSize =>
    have hset := setMaxSize_eq hvalid maxSize
    refine ⟨_, by rw [Generator.call, Generator.setMaxSize, hset]; rfl, valid_ofFields _ _, _, [],
      rfl, rfl, ?_⟩
    exact Parser.emits_update hgood (hlimit maxSize rfl) hset
  | header field nameValueMatch => exact generateHeader_follows hvalid hgood

/-- Every call is a good one when it is made. -/
def GoodCalls : Generator → List Generator.Call → Prop
  | _, [] => True
  | g, c :: calls =>
    Generator.Good g.dynamicTable c ∧ ∀ g', g.call c = some g' → GoodCalls g' calls

/-- **Good calls are followed.** -/
theorem calls_follow {calls : List Generator.Call} (hvalid : g.dynamicTable.Valid)
    (hlimit : ∀ maxSize, .setMaxSize maxSize ∈ calls → maxSize ≤ limit) (hgood : GoodCalls g calls) :
    ∃ g', calls.foldlM Generator.call g = some g' ∧
      Follows limit g (calls.flatMap Generator.Call.fields) g' := by
  induction calls generalizing g with
  | nil => exact ⟨g, rfl, .refl hvalid⟩
  | cons c calls ih =>
    obtain ⟨g₁, hcall, hfollows⟩ := call_follows hvalid
      (fun maxSize heq ↦ hlimit maxSize (heq ▸ mem_cons_self)) hgood.1
    obtain ⟨g₂, hcalls, hfollows'⟩ := ih hfollows.valid
      (fun maxSize hmem ↦ hlimit maxSize (mem_cons_of_mem _ hmem)) (hgood.2 g₁ hcall)
    refine ⟨g₂, ?_, hfollows.trans hfollows'⟩
    rw [foldlM_cons, hcall]
    exact hcalls

/-! ### Blocks -/

/-- **Blocks make the round trip:** each is written after `clear` and decoded, the fields that are
emitted are those that were written, with lower-cased names, and after it the dynamic tables have
the same contents and sizes. -/
def RoundTrips : Generator → Parser → List (List Generator.Call) → Prop
  | _, _, [] => True
  | g, p, calls :: blocks => ∃ g' fields p', g.block calls = some g' ∧
      p.parse g'.headerBlock = .ok (fields, p') ∧
      entriesOf fields = calls.flatMap Generator.Call.fields ∧
      p'.dynamicTable.entries = g'.dynamicTable.entries ∧ p'.dynamicTable.size = g'.dynamicTable.size ∧
      RoundTrips g' p' blocks

/-- Every call in the blocks is a good one when it is made. -/
def GoodBlocks : Generator → List (List Generator.Call) → Prop
  | _, [] => True
  | g, calls :: blocks => GoodCalls g.clear calls ∧ ∀ g', g.block calls = some g' → GoodBlocks g' blocks

theorem roundTrips_of_goodBlocks {blocks : List (List Generator.Call)} (hvalid : g.dynamicTable.Valid)
    (hlimit : ∀ calls ∈ blocks, ∀ maxSize, .setMaxSize maxSize ∈ calls → maxSize ≤ limit)
    (hgood : GoodBlocks g blocks) : RoundTrips g ⟨limit, g.dynamicTable⟩ blocks := by
  induction blocks generalizing g with
  | nil => trivial
  | cons calls blocks ih =>
    obtain ⟨hcalls, hblocks⟩ := hgood
    obtain ⟨g', hblock, hfollows⟩ := calls_follow (g := g.clear) hvalid (hlimit calls mem_cons_self) hcalls
    obtain ⟨bytes, fields, hbytes, hfields, hemits⟩ := hfollows.emits
    have hrest := ih hfollows.valid (fun c hc ↦ hlimit c (mem_cons_of_mem _ hc)) (hblocks g' hblock)
    have hbytes : g'.headerBlock = bytes := hbytes
    refine ⟨g', fields, ⟨limit, g'.dynamicTable⟩, hblock, ?_, hfields, rfl, rfl, hrest⟩
    rw [hbytes]
    exact hemits.parse_eq

/-- **In every run of good calls the blocks make the round trip.** -/
theorem roundTrips_of_good (maxSize limit : ℕ) (blocks : List (List Generator.Call))
    (hlimit : ∀ calls ∈ blocks, ∀ maxSize, .setMaxSize maxSize ∈ calls → maxSize ≤ limit)
    (hgood : GoodBlocks (.init maxSize) blocks) :
    RoundTrips (.init maxSize) ⟨limit, .init maxSize⟩ blocks :=
  roundTrips_of_goodBlocks (valid_init maxSize) hlimit hgood

/-! ### A name that was written before -/

/-- The name `x`, which is behind all names of the static table. -/
def nameX : Bytes := [120]

theorem findLoop_nameX {l : ℕ} (hle : 2 ≤ 60 - l)
    (hcmp : StaticTable.compare nameX (StaticTable.sortedAt ((l + 60) / 2)).2.1 = .gt) :
    findLoop nameX value l 60 = findLoop nameX value ((l + 60) / 2) 60 := by
  have hentry : compareEntry nameX value ((l + 60) / 2) = .gt := by
    rw [compareEntry, hcmp]
    rfl
  rw [findLoop, if_pos hle]
  simp only [hentry]

theorem find_nameX (value : Bytes) : StaticTable.find nameX value = none := by
  change StaticTable.findLoop nameX value 0 60 = none
  iterate 6 rw [findLoop_nameX (by decide) (by decide)]
  rw [StaticTable.findLoop, if_neg (by decide)]
  have hleft : StaticTable.compare nameX (StaticTable.sortedAt 59).2.1 ≠ .eq := by decide
  have hright : StaticTable.compare nameX (StaticTable.sortedAt 60).2.1 ≠ .eq := by decide
  rw [StaticTable.findBetween, if_neg fun h ↦ hleft h.1, if_neg fun h ↦ hright h.1, if_neg hright,
    if_neg hleft]

def headerX : Generator.Call := .header ⟨nameX, [49], false⟩ false

theorem good_headerX {t : DynamicTable} (h : t.entries = []) : Generator.Good t headerX := by
  have hfind : find (toLower nameX) [49] = none := find_nameX [49]
  rw [headerX, Generator.Good, hfind]
  refine ⟨?_, by decide, by decide⟩
  rw [DynamicTable.find, h]
  rfl

theorem roundTrips_headerX : RoundTrips (.init 4096) ⟨4096, .init 4096⟩ [[headerX]] := by
  refine roundTrips_of_good 4096 4096 [[headerX]] ?_ ⟨⟨good_headerX rfl, fun _ _ ↦ trivial⟩, fun _ _ ↦ trivial⟩
  intro calls hcalls maxSize hmem
  obtain rfl := mem_singleton.1 hcalls
  cases mem_singleton.1 hmem

theorem call_headerX : ∃ bytes, (Generator.init 4096).call headerX =
    some ⟨.ofFields 4096 [(nameX, [49])], bytes⟩ := by
  have hfind : find (toLower nameX) [49] = none := find_nameX [49]
  have hadd := add_eq (valid_init 4096) (toLower nameX) [49]
  refine ⟨0x40 :: (encodeString nameX ++ encodeString [49]), ?_⟩
  rw [headerX, Generator.call, Generator.generateHeader]
  rw [hfind]
  change Option.map _ (Option.map _ ((init 4096).add (toLower nameX) [49])) = _
  rw [hadd]
  rfl

/-- The second time it is found there, and the index that is written is that of another field. -/
theorem call_headerX_again (h : g.dynamicTable.entries = [(nameX, [49])]) :
    g.call headerX = some (g.push [189]) := by
  have hfind : find (toLower nameX) [49] = none := find_nameX [49]
  have hdynamic : g.dynamicTable.find (toLower nameX) [49] = some (0, true) := by
    rw [DynamicTable.find, h]
    decide
  rw [headerX, Generator.call, Generator.generateHeader]
  rw [hfind]
  rw [hdynamic]
  rfl

theorem not_roundTrips_headerX : ¬∀ (maxSize limit : ℕ) (blocks : List (List Generator.Call)),
    (∀ calls ∈ blocks, ∀ maxSize, .setMaxSize maxSize ∈ calls → maxSize ≤ limit) →
      RoundTrips (.init maxSize) ⟨limit, .init maxSize⟩ blocks := by
  intro hall
  obtain ⟨g₂, fields, p, hblock, hparse, hfields, -⟩ := hall 4096 4096 [[headerX, headerX]] (by
    intro calls hcalls maxSize hmem
    obtain rfl := mem_singleton.1 hcalls
    rcases mem_cons.1 hmem with hmem | hmem
    · cases hmem
    · cases mem_singleton.1 hmem)
  obtain ⟨g₁, hcall, hfollows⟩ : ∃ g₁, (Generator.init 4096).call headerX = some g₁ ∧
      Follows 4096 (.init 4096) headerX.fields g₁ :=
    call_follows (valid_init 4096) nofun (good_headerX rfl)
  obtain ⟨bytes, hcall'⟩ := call_headerX
  obtain rfl := some.inj (hcall.symm.trans hcall')
  have hblock' : (Generator.init 4096).block [headerX, headerX] =
      some (Generator.push ⟨.ofFields 4096 [(nameX, [49])], bytes⟩ [189]) := by
    change ((Generator.init 4096).call headerX >>= fun g ↦ g.call headerX >>= pure) = _
    rw [hcall]
    exact (bind_pure _).trans (call_headerX_again rfl)
  obtain rfl := some.inj (hblock.symm.trans hblock')
  obtain ⟨bytes', fields', hbytes, hfields', hemits⟩ := hfollows.emits
  obtain rfl : bytes = bytes' := hbytes
  have hwrong : Parser.Emits ⟨4096, .ofFields 4096 [(nameX, [49])]⟩ [189]
      [⟨StaticTable.bytes "www-authenticate", StaticTable.bytes "", false⟩]
      ⟨4096, .ofFields 4096 [(nameX, [49])]⟩ := Parser.emits_indexed (by decide : 60 < 61) rfl
  have hparse' := (hemits.trans hwrong).parse_eq
  obtain ⟨rfl, -⟩ := Prod.mk.inj (ok.inj (hparse.symm.trans hparse'))
  rw [entriesOf, map_append, ← entriesOf, hfields'] at hfields
  exact absurd hfields (by decide)

end

end Xzero.Http.Hpack
