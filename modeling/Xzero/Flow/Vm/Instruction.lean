import Xzero.Library.Bits

/-!
# Instructions

`xzero-flow/vm/Instruction.h`: an instruction is a 64-bit word with the opcode in its lowest bits
and three operands of 16 bits above it. The encoder shifts its first operand as an `int`; an operand
with its highest bit set makes that `int` negative, and widening it to 64 bits fills the other two
operands with ones. **Up to this, decoding inverts encoding** (`operandA_makeInstruction` and its
siblings).
-/

namespace Xzero.Flow.Vm

/-- `vm::Opcode`, in the order of the source. -/
inductive Opcode
  | nop
  -- control
  | exit | jmp | jn | jz
  -- copy
  | mov
  -- const arrays
  | itconst | stconst | ptconst | ctconst
  -- numerical
  | imov | nconst | nneg | nnot
  | nadd | nsub | nmul | ndiv | nrem | nshl | nshr | npow | nand | nor | nxor
  | ncmpz | ncmpeq | ncmpne | ncmple | ncmpge | ncmplt | ncmpgt
  -- numerical (reg, imm)
  | niadd | nisub | nimul | nidiv | nirem | nishl | nishr | nipow | niand | nior | nixor
  | nicmpeq | nicmpne | nicmple | nicmpge | nicmplt | nicmpgt
  -- boolean
  | bnot | band | bor | bxor
  -- string
  | sconst | sadd | saddmulti | ssubstr
  | scmpeq | scmpne | scmple | scmpge | scmplt | scmpgt | scmpbeg | scmpend | scontains
  | slen | sisempty
  | smatcheq | smatchbeg | smatchend | smatchr
  -- IP address
  | pconst | pcmpeq | pcmpne | pincidr
  -- CIDR
  | cconst
  -- regex
  | sregmatch | sreggroup
  -- conversion
  | i2s | p2s | c2s | r2s | s2i | surlenc | surldec
  -- invokation
  | call | handler
  deriving DecidableEq, Repr

/-- The number of an opcode is its position. -/
def Opcode.toNat (opc : Opcode) : ℕ := opc.ctorIdx

theorem Opcode.toNat_lt (opc : Opcode) : opc.toNat < 2 ^ 8 := by
  cases opc <;> decide

def Opcode.decode (n : ℕ) : Opcode := Opcode.ofNat n

theorem Opcode.decode_toNat (opc : Opcode) : Opcode.decode opc.toNat = opc := by
  cases opc <;> rfl

/-- An instruction word, a `uint64_t`. -/
abbrev Instruction := ℕ

/-- `opc | (op1 << 16)` as an `int`, widened to 64 bits: a set bit 31 is its sign. -/
def makeHead (opc : Opcode) (op1 : ℕ) : ℕ :=
  let word := opc.toNat ||| op1 <<< 16
  if word < 2 ^ 31 then word else word + (2 ^ 64 - 2 ^ 32)

/-- `makeInstruction` without operands. -/
def makeInstruction₀ (opc : Opcode) : Instruction := opc.toNat

/-- `makeInstruction` with one operand. -/
def makeInstruction₁ (opc : Opcode) (op1 : ℕ) : Instruction := makeHead opc (op1 % 2 ^ 16)

/-- `makeInstruction` with two operands. -/
def makeInstruction₂ (opc : Opcode) (op1 op2 : ℕ) : Instruction :=
  makeHead opc (op1 % 2 ^ 16) ||| (op2 % 2 ^ 16) <<< 32

/-- `makeInstruction` with three operands, each a `uint16_t`. The encoders with fewer operands are
this one with zeros. -/
def makeInstruction (opc : Opcode) (op1 op2 op3 : ℕ) : Instruction :=
  makeHead opc (op1 % 2 ^ 16) ||| (op2 % 2 ^ 16) <<< 32 ||| (op3 % 2 ^ 16) <<< 48

def opcode (instr : Instruction) : Opcode := Opcode.decode (instr &&& 0xff)

def operandA (instr : Instruction) : ℕ := instr >>> 16 &&& 0xffff

def operandB (instr : Instruction) : ℕ := instr >>> 32 &&& 0xffff

def operandC (instr : Instruction) : ℕ := instr >>> 48 &&& 0xffff

/-! ### Decoding -/

section Decode

variable (opc : Opcode) {a : ℕ} (b c : ℕ)

theorem makeInstruction_eq (ha : a < 2 ^ 15) : makeInstruction opc a b c =
      opc.toNat + a * 2 ^ 16 + b % 2 ^ 16 * 2 ^ 32 + c % 2 ^ 16 * 2 ^ 48 := by
  have hopc := opc.toNat_lt
  have hhead : makeHead opc (a % 2 ^ 16) = opc.toNat + a * 2 ^ 16 := by
    have hword := Nat.or_shiftLeft_eq_add (show opc.toNat < 2 ^ 16 by omega) a
    rw [Nat.mod_eq_of_lt (by omega), makeHead]
    simp only [hword]
    rw [if_pos (by omega)]
  have hlow : opc.toNat + a * 2 ^ 16 < 2 ^ 32 := by omega
  rw [makeInstruction, hhead, Nat.or_shiftLeft_eq_add hlow, Nat.or_shiftLeft_eq_add (by omega)]

theorem and_0xffff (n : ℕ) : n &&& 0xffff = n % 2 ^ 16 := Nat.and_two_pow_sub_one_eq_mod n 16

variable (ha : a < 2 ^ 15)

include ha

theorem opcode_makeInstruction : opcode (makeInstruction opc a b c) = opc := by
  have hopc := opc.toNat_lt
  rw [opcode, makeInstruction_eq opc b c ha, Nat.and_two_pow_sub_one_eq_mod _ 8]
  have hmod : (opc.toNat + a * 2 ^ 16 + b % 2 ^ 16 * 2 ^ 32 + c % 2 ^ 16 * 2 ^ 48) % 2 ^ 8 =
      opc.toNat := by omega
  rw [hmod, Opcode.decode_toNat]

theorem operandA_makeInstruction : operandA (makeInstruction opc a b c) = a := by
  have hopc := opc.toNat_lt
  rw [operandA, makeInstruction_eq opc b c ha, and_0xffff, Nat.shiftRight_eq_div_pow]
  omega

theorem operandB_makeInstruction : operandB (makeInstruction opc a b c) = b % 2 ^ 16 := by
  have hopc := opc.toNat_lt
  rw [operandB, makeInstruction_eq opc b c ha, and_0xffff, Nat.shiftRight_eq_div_pow]
  omega

theorem operandC_makeInstruction : operandC (makeInstruction opc a b c) = c % 2 ^ 16 := by
  have hopc := opc.toNat_lt
  rw [operandC, makeInstruction_eq opc b c ha, and_0xffff, Nat.shiftRight_eq_div_pow]
  omega

end Decode

/-- The word is decoded to the opcode and the operands. -/
def Decodes (instr : Instruction) (opc : Opcode) (a b c : ℕ) : Prop :=
  opcode instr = opc ∧ operandA instr = a ∧ operandB instr = b ∧ operandC instr = c

/-- Each encoder is inverted, with zeros for the operands that it is not given. -/
def Invertible (opc : Opcode) (a b c : UInt16) : Prop :=
  Decodes (makeInstruction₀ opc) opc 0 0 0 ∧
    Decodes (makeInstruction₁ opc a.toNat) opc a.toNat 0 0 ∧
    Decodes (makeInstruction₂ opc a.toNat b.toNat) opc a.toNat b.toNat 0 ∧
    Decodes (makeInstruction opc a.toNat b.toNat c.toNat) opc a.toNat b.toNat c.toNat

/-- **Decoding inverts encoding if and only if the highest bit of the first operand is clear.** -/
theorem invertible_iff (opc : Opcode) (a b c : UInt16) :
    Invertible opc a b c ↔ a.toNat < 2 ^ 15 := by
  have hopc := opc.toNat_lt
  constructor
  · rintro ⟨-, ⟨-, -, hB, -⟩, -⟩
    by_contra ha
    -- The sign has been copied to all bits of the second operand.
    have hword := Nat.or_shiftLeft_eq_add (show opc.toNat < 2 ^ 16 by omega) a.toNat
    rw [makeInstruction₁, Nat.mod_eq_of_lt a.toNat_lt, makeHead, hword, if_neg (by omega), operandB,
      and_0xffff, Nat.shiftRight_eq_div_pow] at hB
    have hlt := a.toNat_lt
    omega
  · intro ha
    have h {a : ℕ} (ha : a < 2 ^ 15) (b c : UInt16) : Decodes
        (makeInstruction opc a b.toNat c.toNat) opc a b.toNat c.toNat :=
      ⟨opcode_makeInstruction opc _ _ ha, operandA_makeInstruction opc _ _ ha,
        (operandB_makeInstruction opc _ _ ha).trans (Nat.mod_eq_of_lt b.toNat_lt),
        (operandC_makeInstruction opc _ _ ha).trans (Nat.mod_eq_of_lt c.toNat_lt)⟩
    have h₀ : makeInstruction₀ opc = makeInstruction opc 0 0 0 := by
      rw [makeInstruction_eq opc 0 0 (by decide)]
      rfl
    have h₁ : makeInstruction₁ opc a.toNat = makeInstruction opc a.toNat 0 0 := by
      simp [makeInstruction₁, makeInstruction]
    have h₂ : makeInstruction₂ opc a.toNat b.toNat = makeInstruction opc a.toNat b.toNat 0 := by
      simp [makeInstruction₂, makeInstruction]
    rw [Invertible, h₀, h₁, h₂]
    exact ⟨h (by decide) 0 0, h ha 0 0, h ha b 0, h ha b c⟩

/-- A first operand of `0x8000`, given alone, is decoded with two others. -/
theorem not_invertible : ¬ ∀ (opc : Opcode) (a b c : UInt16), Invertible opc a b c := by
  intro h
  have hB : operandB (makeInstruction₁ .jmp 0x8000) = 0 := (h .jmp 0x8000 0 0).2.1.2.2.1
  revert hB
  decide

end Xzero.Flow.Vm
