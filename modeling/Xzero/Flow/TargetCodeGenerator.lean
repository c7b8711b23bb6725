import Xzero.Flow.Ir.Operation

/-!
# Instruction selection

`xzero-flow/TargetCodeGenerator.cc`, the visitors of the instructions that compute a value. Each
takes a fresh register for the result and then the registers of the operands, loading a constant
into a register of its own; most numeric instructions put a constant operand, on whichever side it
stands, into the instruction's third operand.
-/

namespace Xzero.Flow

open Vm Ir

/-- The members of `TargetCodeGenerator` that the visitors work on. -/
structure TargetCodeGenerator where
  /-- `code_`, the current handler's code. -/
  code : List Instruction
  /-- `variables_`, the registers of the values that have one. -/
  vars : ℕ → Option ℕ
  /-- The size of `allocations_`. -/
  allocations : ℕ
  /-- `cp_`. -/
  pool : ConstantPool

namespace TargetCodeGenerator

/-- A new generator: register `0` is reserved. -/
def init : TargetCodeGenerator := ⟨[], fun _ ↦ none, 1, ⟨[], []⟩⟩

def emit (g : TargetCodeGenerator) (opc : Opcode) (op1 op2 op3 : ℕ) : TargetCodeGenerator :=
  { g with code := g.code ++ [makeInstruction opc op1 op2 op3] }

/-- `allocate(1)`: the register, and the generator that has it in use. -/
def allocate (g : TargetCodeGenerator) : ℕ × TargetCodeGenerator :=
  (g.allocations, { g with allocations := g.allocations + 1 })

/-- `allocate(1, alias)`. -/
def allocateFor (g : TargetCodeGenerator) (id : ℕ) : ℕ × TargetCodeGenerator :=
  (g.allocations, { g with
    allocations := g.allocations + 1
    vars := Function.update g.vars id (some g.allocations) })

/-- `getRegister` on a constant. -/
def loadConstant (g : TargetCodeGenerator) (c : Constant) : ℕ × TargetCodeGenerator :=
  let (reg, g) := g.allocate
  match c with
  | .int number =>
    if number.IsInt16 then (reg, g.emit .imov reg number.toNat 0)
    else
      let (numbers, i) := ensureValue g.pool.numbers number
      (reg, { g with pool := { g.pool with numbers } }.emit .nconst reg i 0)
  | .boolean b => (reg, g.emit .imov reg b.toNat 0)
  | .string s =>
    let (strings, i) := ensureValue g.pool.strings s
    (reg, { g with pool := { g.pool with strings } }.emit .sconst reg i 0)

/-- `getRegister`. It returns an `Operand`, which has sixteen bits. -/
def getRegister (g : TargetCodeGenerator) : Value → ℕ × TargetCodeGenerator
  | .const c => ((g.loadConstant c).1 % 2 ^ 16, (g.loadConstant c).2)
  | .instr id _ =>
    match g.vars id with
    | some reg => (reg % 2 ^ 16, g)
    | none => ((g.allocateFor id).1 % 2 ^ 16, (g.allocateFor id).2)

def emitUnary (g : TargetCodeGenerator) (id : ℕ) (x : Value) (r : Opcode) : TargetCodeGenerator :=
  let (a, g) := g.allocateFor id
  let (b, g) := g.getRegister x
  g.emit r a b 0

/-- `emitBinary(instr, rr)`. -/
def emitRegisters (g : TargetCodeGenerator) (id : ℕ) (x y : Value) (rr : Opcode) :
    TargetCodeGenerator :=
  let (a, g) := g.allocateFor id
  let (b, g) := g.getRegister x
  let (c, g) := g.getRegister y
  g.emit rr a b c

/-- What `emitBinary` and `emitBinaryAssoc` do with an immediate. -/
def emitImmediate (g : TargetCodeGenerator) (id : ℕ) (x : Value) (i : Word) (ri : Opcode) :
    TargetCodeGenerator :=
  let (a, g) := g.allocateFor id
  let (b, g) := g.getRegister x
  g.emit ri a b i.toNat

/-- `emitBinary(instr, rr, ri)`: a constant on the right becomes an immediate. -/
def emitBinary (g : TargetCodeGenerator) (id : ℕ) (x y : Value) (rr ri : Opcode) :
    TargetCodeGenerator :=
  match y with
  | .const (.int i) => g.emitImmediate id x i ri
  | y => g.emitRegisters id x y rr

/-- `emitBinaryAssoc`: a constant on either side becomes an immediate. -/
def emitBinaryAssoc (g : TargetCodeGenerator) (id : ℕ) (x y : Value) (rr ri : Opcode) :
    TargetCodeGenerator :=
  match x, y with
  | x, .const (.int i) => g.emitImmediate id x i ri
  | .const (.int i), y => g.emitImmediate id y i ri
  | x, y => g.emitRegisters id x y rr

/-- `visit(CastInstr&)`: a cast to the type a value already has is an alias; a combination that is
missing in the table fails the assertion. -/
def visitCast (g : TargetCodeGenerator) (id : ℕ) (x : Value) (target : FlowType) :
    Option TargetCodeGenerator :=
  if target = x.type then
    let (reg, g) := g.getRegister x
    some { g with vars := Function.update g.vars id (some reg) }
  else match target, x.type with
    | .string, .number => some (g.emitUnary id x .i2s)
    | .string, .ipAddress => some (g.emitUnary id x .p2s)
    | .string, .cidr => some (g.emitUnary id x .c2s)
    | .string, .regExp => some (g.emitUnary id x .r2s)
    | .number, .string => some (g.emitUnary id x .s2i)
    | _, _ => none

/-- The visitors of the instructions with one operand; `none` is a failed assertion. -/
def visitUnary (g : TargetCodeGenerator) (id : ℕ) (x : Value) :
    UnaryOp → Option TargetCodeGenerator
  | .ineg => some (g.emitUnary id x .nneg)
  | .inot => some (g.emitUnary id x .nnot)
  | .bnot => some (g.emitUnary id x .bnot)
  | .slen => none
  | .sisempty => none
  | .toStr => g.visitCast id x .string
  | .toNumber => g.visitCast id x .number

/-- The visitors of the instructions with two operands. -/
def visitBinary (g : TargetCodeGenerator) (id : ℕ) (x y : Value) : BinaryOp → TargetCodeGenerator
  | .num .add => g.emitBinaryAssoc id x y .nadd .niadd
  | .num .sub => g.emitBinaryAssoc id x y .nsub .nisub
  | .num .mul => g.emitBinaryAssoc id x y .nmul .nimul
  | .num .div => g.emitBinaryAssoc id x y .ndiv .nidiv
  | .num .rem => g.emitBinaryAssoc id x y .nrem .nirem
  | .num .pow => g.emitBinary id x y .npow .nipow
  | .num .and => g.emitBinaryAssoc id x y .nand .niand
  | .num .or => g.emitBinaryAssoc id x y .nor .nior
  | .num .xor => g.emitBinaryAssoc id x y .nxor .nixor
  | .num .shl => g.emitBinaryAssoc id x y .nshl .nishl
  | .num .shr => g.emitBinaryAssoc id x y .nshr .nishr
  | .num .cmpEQ => g.emitBinaryAssoc id x y .ncmpeq .nicmpeq
  | .num .cmpNE => g.emitBinaryAssoc id x y .ncmpne .nicmpne
  | .num .cmpLE => g.emitBinaryAssoc id x y .ncmple .nicmple
  | .num .cmpGE => g.emitBinaryAssoc id x y .ncmpge .nicmpge
  | .num .cmpLT => g.emitBinaryAssoc id x y .ncmplt .nicmplt
  | .num .cmpGT => g.emitBinaryAssoc id x y .ncmpgt .nicmpgt
  | .band => g.emitRegisters id x y .band
  | .bor => g.emitRegisters id x y .band
  | .bxor => g.emitRegisters id x y .bxor
  | .sadd => g.emitRegisters id x y .sadd
  | .scmp .eq => g.emitRegisters id x y .scmpeq
  | .scmp .ne => g.emitRegisters id x y .scmpne
  | .scmp .le => g.emitRegisters id x y .scmple
  | .scmp .ge => g.emitRegisters id x y .scmpge
  | .scmp .lt => g.emitRegisters id x y .scmplt
  | .scmp .gt => g.emitRegisters id x y .scmpgt
  | .scmpBeg => g.emitRegisters id x y .scmpbeg
  | .scmpEnd => g.emitRegisters id x y .scmpend
  | .sin => g.emitRegisters id x y .scontains

end TargetCodeGenerator

end Xzero.Flow
