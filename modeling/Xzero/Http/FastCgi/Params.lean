import Xzero.Library.Bits
import Xzero.Util.Buffer

/-!
# The parameters of a FastCGI request

`xzero/http/fastcgi/bits.cc`: a parameter is the length of its name, the length of its value, the
name and the value; a length is one byte, or four with the highest bit set. `CgiParamStreamReader`
does not look whether a parameter is complete: it takes what is there in memory. So it is given the
memory from the parameters on, and how much of it they are.

**Nothing behind the parameters is read if and only if they are complete** (`inside_iff`), and **what
`encode` has written is read back** (`processParams_calls`). `encodeHeader` writes a number for every
letter of a name, since `std::toupper` gives an `int`.
-/

namespace Xzero.Http.FastCgi

open List Util Option

/-! ### The writer -/

/-- `std::toupper` in the C locale, of a `char`, which is an `int`. -/
def toUpper (ch : UInt8) : ℤ :=
  if 97 ≤ ch ∧ ch ≤ 122 then ch.toNat - 32 else ch.toBitVec.toInt

def encodeLength (length : ℕ) : Bytes :=
  if length < 127 then [UInt8.ofNat length]
  else
    [UInt8.ofNat ((length >>> 24) &&& 0xFF ||| 0x80), UInt8.ofNat (length >>> 16),
      UInt8.ofNat (length >>> 8), UInt8.ofNat length]

def encode (name value : Bytes) : Bytes :=
  encodeLength name.length ++ encodeLength value.length ++ name ++ value

/-- `encodeHeader`: a character is written as the number that `std::toupper` gives. -/
def encodeHeader (name value : Bytes) : Bytes :=
  encodeLength (5 + name.length) ++ encodeLength value.length ++ ofString "HTTP_" ++
    (name.flatMap fun ch ↦ if ch = '-'.toUInt8 then ['_'.toUInt8]
      else StringUtil.decimal (toUpper ch)) ++ value

/-! ### The reader -/

/-- A length, in one byte or in four, and what follows it in memory. -/
def readLength : Bytes → Option (ℕ × Bytes)
  | [] => none
  | b :: rest =>
    if b < 128 then some (b.toNat, rest)
    else
      match rest with
      | b₁ :: b₂ :: b₃ :: rest =>
        some ((b.toNat - 128) * 2 ^ 24 + b₁.toNat * 2 ^ 16 + b₂.toNat * 2 ^ 8 + b₃.toNat, rest)
      | _ => none

/-- A parameter, and what follows it in memory. -/
def readParam (memory : Bytes) : Option ((Bytes × Bytes) × Bytes) :=
  readLength memory >>= fun (nameLength, memory) ↦
    readLength memory >>= fun (valueLength, memory) ↦
      if memory.length < nameLength + valueLength then none
      else some ((memory.take nameLength, (memory.drop nameLength).take valueLength),
        memory.drop (nameLength + valueLength))

/-- A length as it stands in memory: one byte, or four, of which the first one has the highest bit
set. -/
inductive Length : Bytes → ℕ → Prop
  | short {b : UInt8} (hb : b < 128) : Length [b] b.toNat
  | long {b : UInt8} (hb : ¬b < 128) (b₁ b₂ b₃ : UInt8) : Length [b, b₁, b₂, b₃]
      ((b.toNat - 128) * 2 ^ 24 + b₁.toNat * 2 ^ 16 + b₂.toNat * 2 ^ 8 + b₃.toNat)

/-- A complete parameter. -/
inductive Param : Bytes → Bytes × Bytes → Prop
  | intro {l₁ l₂ name value : Bytes} (hname : Length l₁ name.length)
      (hvalue : Length l₂ value.length) : Param (l₁ ++ (l₂ ++ (name ++ value))) (name, value)

section

variable {memory rest : Bytes} {n : ℕ} {param : Bytes × Bytes}

theorem readLength_eq_some_iff :
    readLength memory = some (n, rest) ↔ ∃ l, Length l n ∧ memory = l ++ rest := by
  constructor
  · intro h
    unfold readLength at h
    split at h
    · cases h
    · split_ifs at h with hb
      · cases h
        exact ⟨_, .short hb, rfl⟩
      · split at h
        · cases h
          exact ⟨_, .long hb _ _ _, rfl⟩
        · cases h
  · rintro ⟨l, hl, rfl⟩
    cases hl with
    | short hb => exact if_pos hb
    | long hb => exact if_neg hb

theorem readParam_eq_some_iff :
    readParam memory = some (param, rest) ↔ ∃ bytes, Param bytes param ∧ memory = bytes ++ rest := by
  constructor
  · intro h
    obtain ⟨⟨n, memory₁⟩, hn, h₁⟩ := bind_eq_some_iff.1 h
    obtain ⟨⟨v, memory₂⟩, hv, h₂⟩ := bind_eq_some_iff.1 h₁
    obtain ⟨l₁, hl₁, rfl⟩ := readLength_eq_some_iff.1 hn
    obtain ⟨l₂, hl₂, rfl⟩ := readLength_eq_some_iff.1 hv
    simp only at h₂
    split_ifs at h₂ with hlt
    cases h₂
    have hname : (memory₂.take n).length = n := by simp; omega
    have hvalue : ((memory₂.drop n).take v).length = v := by simp; omega
    refine ⟨_, .intro (by rwa [hname]) (by rwa [hvalue]), ?_⟩
    simp only [append_assoc, ← drop_drop, take_append_drop]
  · rintro ⟨_, ⟨hname, hvalue⟩, rfl⟩
    rw [append_assoc, readParam, readLength_eq_some_iff.2 ⟨_, hname, rfl⟩]
    simp only [bind_eq_bind, bind_some]
    rw [append_assoc, readLength_eq_some_iff.2 ⟨_, hvalue, rfl⟩]
    simp only [bind_some]
    rw [if_neg (by simp), append_assoc, take_left, drop_left, take_left, ← append_assoc,
      drop_left' (by simp)]

theorem Length.length_pos {l : Bytes} (h : Length l n) : 0 < l.length := by
  cases h <;> exact Nat.succ_pos _

theorem Param.length_pos {bytes : Bytes} (h : Param bytes param) : 0 < bytes.length := by
  obtain ⟨hname, -⟩ := h
  rw [length_append]
  exact Nat.add_pos_left hname.length_pos _

theorem length_of_readParam (h : readParam memory = some (param, rest)) :
    rest.length < memory.length := by
  obtain ⟨bytes, hparam, rfl⟩ := readParam_eq_some_iff.1 h
  rw [length_append]
  exact Nat.lt_add_of_pos_left hparam.length_pos

end

/-- `processParams`: the parameters in the memory, while they begin in the first `left` bytes of it.
`none` stands for a read past the end of the memory. -/
def processParams (left : ℕ) (memory : Bytes) : Option (List (Bytes × Bytes)) :=
  if left = 0 then some []
  else
    match _h : readParam memory with
    | none => none
    | some (param, rest) =>
      (processParams (left - (memory.length - rest.length)) rest).map (param :: ·)
termination_by left
decreasing_by
  have := length_of_readParam _h
  omega

/-! ### Complete parameters -/

section

variable {memory data : Bytes} {left : ℕ} {parts : List Bytes} {params : List (Bytes × Bytes)}

theorem processParams_zero (memory : Bytes) : processParams 0 memory = some [] := by
  rw [processParams, if_pos rfl]

/-- Parameters that are complete are reported, whatever is behind them. -/
theorem processParams_append (h : Forall₂ Param parts params) (memory : Bytes) (left : ℕ) :
    processParams (parts.flatten.length + left) (parts.flatten ++ memory) =
      (processParams left memory).map (params ++ ·) := by
  induction h with
  | nil => simp
  | @cons bytes param parts params hparam _ ih =>
    have hread := readParam_eq_some_iff.2 ⟨bytes, hparam, append_assoc bytes parts.flatten memory⟩
    have hpos := hparam.length_pos
    rw [flatten_cons, processParams, if_neg (by rw [length_append]; omega)]
    split
    · next hnone => cases hnone.symm.trans hread
    · next hsome =>
      cases hsome.symm.trans hread
      have hleft : (bytes ++ parts.flatten).length + left - ((bytes ++ parts.flatten ++ memory).length -
          (parts.flatten ++ memory).length) = parts.flatten.length + left := by
        simp only [length_append]
        omega
      rw [hleft, ih, Option.map_map]
      rfl

theorem exists_of_processParams (h : processParams left memory = some params) :
    ∃ parts rest, Forall₂ Param parts params ∧ memory = parts.flatten ++ rest ∧
      left ≤ parts.flatten.length := by
  fun_induction processParams left memory generalizing params with
  | case1 memory =>
    cases h
    exact ⟨[], memory, .nil, rfl, le_rfl⟩
  | case2 => cases h
  | case3 left memory hleft param rest hread ih =>
    obtain ⟨params, hparams, rfl⟩ := map_eq_some_iff.1 h
    obtain ⟨bytes, hparam, rfl⟩ := readParam_eq_some_iff.1 hread
    obtain ⟨parts, rest, hparts, rfl, hle⟩ := ih hparams
    refine ⟨bytes :: parts, rest, .cons hparam hparts, (append_assoc _ _ _).symm, ?_⟩
    simp only [flatten_cons, length_append] at hle ⊢
    omega

/-- What is reported is the same whatever there is in memory behind the parameters, and if there is
nothing: every byte that is read is one of them. -/
def Inside (data : Bytes) : Prop :=
  ∃ params, ∀ memory, processParams data.length (data ++ memory) = some params

/-- **Nothing behind the bytes is read if and only if they are complete parameters.** -/
theorem inside_iff :
    Inside data ↔ ∃ parts params, Forall₂ Param parts params ∧ data = parts.flatten := by
  constructor
  · rintro ⟨params, hparams⟩
    obtain ⟨parts, rest, hparts, hdata, hle⟩ := exists_of_processParams (hparams [])
    rw [append_nil] at hdata
    subst hdata
    have hrest : rest = [] := by
      rw [length_append] at hle
      exact length_eq_zero_iff.1 (by omega)
    exact ⟨parts, params, hparts, by rw [hrest, append_nil]⟩
  · rintro ⟨parts, params, hparts, rfl⟩
    refine ⟨params, fun memory ↦ ?_⟩
    have hall := processParams_append hparts memory 0
    rwa [processParams_zero, Option.map_some, append_nil] at hall

/-- A length that announces more than there is. -/
theorem not_inside : ¬∀ data, Inside data := by
  intro hall
  obtain ⟨params, hparams⟩ := hall [1]
  have hnone := hparams []
  rw [processParams] at hnone
  cases hnone

/-! ### What is written is read -/

variable {name value : Bytes}

theorem length_encodeLength {n : ℕ} (h : n < 2 ^ 31) : Length (encodeLength n) n := by
  rw [encodeLength]
  split_ifs with hshort
  · have hnat : (UInt8.ofNat n).toNat = n := by
      rw [UInt8.toNat_ofNat']
      omega
    have hlength : Length [UInt8.ofNat n] (UInt8.ofNat n).toNat := .short (by
      rw [UInt8.lt_iff_toNat_lt, hnat]
      exact hshort.trans (by decide))
    rwa [hnat] at hlength
  · have hor : n >>> 24 &&& 0xFF ||| 0x80 = n / 2 ^ 24 + 128 := by
      have hand : n >>> 24 &&& 0xFF = n / 2 ^ 24 := by
        rw [Nat.shiftRight_eq_div_pow]
        show n / 2 ^ 24 &&& (2 ^ 8 - 1) = _
        rw [Nat.and_two_pow_sub_one_eq_mod]
        omega
      rw [hand]
      exact Nat.or_shiftLeft_eq_add (k := 7) (by omega) 1
    have hfirst : (UInt8.ofNat (n >>> 24 &&& 0xFF ||| 0x80)).toNat = n / 2 ^ 24 + 128 := by
      rw [hor, UInt8.toNat_ofNat']
      omega
    generalize UInt8.ofNat (n >>> 24 &&& 0xFF ||| 0x80) = b at hfirst
    have hnot : ¬b < 128 := by
      rw [UInt8.lt_iff_toNat_lt, hfirst]
      exact Nat.not_lt.2 (Nat.le_add_left _ _)
    have hlong := Length.long hnot (.ofNat (n >>> 16)) (.ofNat (n >>> 8)) (.ofNat n)
    have hvalue : (b.toNat - 128) * 2 ^ 24 + (UInt8.ofNat (n >>> 16)).toNat * 2 ^ 16 +
        (UInt8.ofNat (n >>> 8)).toNat * 2 ^ 8 + (UInt8.ofNat n).toNat = n := by
      simp only [hfirst, UInt8.toNat_ofNat', Nat.shiftRight_eq_div_pow]
      omega
    rwa [hvalue] at hlong

theorem encode_ne_nil (name value : Bytes) : encode name value ≠ [] := by
  rw [encode, encodeLength]
  split_ifs <;> exact cons_ne_nil _ _

theorem param_encode (hname : name.length < 2 ^ 31) (hvalue : value.length < 2 ^ 31) :
    Param (encode name value) (name, value) := by
  rw [encode, append_assoc, append_assoc]
  exact .intro (length_encodeLength hname) (length_encodeLength hvalue)

theorem processParams_flatMap_encode
    (h : ∀ param ∈ params, param.1.length < 2 ^ 31 ∧ param.2.length < 2 ^ 31) (memory : Bytes)
    (left : ℕ) :
    processParams ((params.flatMap fun param ↦ encode param.1 param.2).length + left)
        ((params.flatMap fun param ↦ encode param.1 param.2) ++ memory) =
      (processParams left memory).map (params ++ ·) := by
  rw [flatMap_def]
  refine processParams_append ?_ memory left
  rw [forall₂_map_left_iff, forall₂_same]
  exact fun param hparam ↦ param_encode (h param hparam).1 (h param hparam).2

/-- `encode` of a value that is given in two parts. -/
def encodeParts (name v₁ v₂ : Bytes) : Bytes :=
  encodeLength name.length ++ encodeLength (v₁.length + v₂.length) ++ name ++ v₁ ++ v₂

/-- A call of `encode`, with a value or with two parts of one. -/
inductive Encode
  | whole (name value : Bytes)
  | parts (name v₁ v₂ : Bytes)

def Encode.param : Encode → Bytes × Bytes
  | .whole name value => (name, value)
  | .parts name v₁ v₂ => (name, v₁ ++ v₂)

def Encode.bytes : Encode → Bytes
  | .whole name value => encode name value
  | .parts name v₁ v₂ => encodeParts name v₁ v₂

theorem Encode.bytes_eq (call : Encode) : call.bytes = encode call.param.1 call.param.2 := by
  cases call with
  | whole name value => rfl
  | parts name v₁ v₂ =>
    show encodeParts name v₁ v₂ = encode name (v₁ ++ v₂)
    rw [encodeParts, encode, length_append, append_assoc _ v₁ v₂]

/-- **What `encode` has written is read back.** -/
theorem processParams_calls {calls : List Encode}
    (h : ∀ call ∈ calls, call.param.1.length < 2 ^ 31 ∧ call.param.2.length < 2 ^ 31) :
    processParams (calls.flatMap Encode.bytes).length (calls.flatMap Encode.bytes) =
      some (calls.map Encode.param) := by
  have hall := processParams_flatMap_encode (forall_mem_map.2 h) [] 0
  rw [flatMap_map, Nat.add_zero, processParams_zero, append_nil, Option.map_some, append_nil] at hall
  rwa [funext Encode.bytes_eq]

theorem processParams_two :
    processParams 9 [1, 1, 97, 98, 1, 2, 97, 98, 99] = some [([97], [98]), ([97], [98, 99])] :=
  @processParams_calls [.whole [97] [98], .parts [97] [98] [99]] (by decide)

end

end Xzero.Http.FastCgi
