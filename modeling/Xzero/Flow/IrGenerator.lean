import Xzero.Flow.Expression
import Xzero.Flow.Ir.Builder

/-!
# From expressions to instructions

`xzero-flow/IRGenerator.cc`, the expressions: their code is a list of instructions, in the order in
which they are inserted, and a value (`Expr.codegen`). Instructions are numbered in this order.
-/

namespace Xzero.Flow

open Vm Ir

/-- The type of an instruction's result. -/
def Computation.type : Computation → FlowType
  | unary .ineg _ | unary .inot _ | unary .slen _ | unary .toNumber _ => .number
  | unary .bnot _ | unary .sisempty _ => .boolean
  | unary .toStr _ => .string
  | binary (.num .cmpEQ) _ _ | binary (.num .cmpNE) _ _ | binary (.num .cmpLE) _ _
  | binary (.num .cmpGE) _ _ | binary (.num .cmpLT) _ _ | binary (.num .cmpGT) _ _ => .boolean
  | binary (.num _) _ _ => .number
  | binary .sadd _ _ => .string
  | binary _ _ _ => .boolean

/-- An instruction of straight code, with the number of its result. -/
inductive Ins
  | compute (id : ℕ) (c : Computation)
  /-- `LoadInstr` -/
  | load (id var : ℕ)
  deriving DecidableEq, Repr

/-- The number of an instruction's result. -/
def Ins.id : Ins → ℕ
  | compute id _ => id
  | load id _ => id

/-- The instructions inserted so far, and the next number. -/
structure IrBuilder where
  /-- The number of the next instruction. -/
  next : ℕ
  code : List Ins
  deriving DecidableEq, Repr

namespace IrBuilder

/-- The value a `create` function returns; an instruction is inserted. -/
def insert (b : IrBuilder) : Created → Value × IrBuilder
  | .value v => (v, b)
  | .instr c => (.instr b.next c.type, ⟨b.next + 1, b.code ++ [.compute b.next c]⟩)

def createLoad (b : IrBuilder) (var : ℕ) (type : FlowType) : Value × IrBuilder :=
  (.instr b.next type, ⟨b.next + 1, b.code ++ [.load b.next var]⟩)

end IrBuilder

/-- The table of `accept(UnaryExpr&)`; an opcode that is missing fails the assertion. -/
def unaryOps : Opcode → Value → Option Created
  | .i2s, rhs => createI2S rhs
  | .s2i, rhs => createS2I rhs
  | .nneg, rhs => createNeg rhs
  | .nnot, rhs => createNot rhs
  | .bnot, rhs => createBNot rhs
  | _, _ => none

/-- The table of `accept(BinaryExpr&)`; an opcode that is missing fails the assertion. A disjunction
(`BOR`) is not among them: its code has branches. -/
def binaryOps : Opcode → Value → Value → Option Created
  | .band, lhs, rhs => createBAnd lhs rhs
  | .bxor, lhs, rhs => createBXor lhs rhs
  | .nadd, lhs, rhs => createAdd lhs rhs
  | .nsub, lhs, rhs => createSub lhs rhs
  | .nmul, lhs, rhs => createMul lhs rhs
  | .ndiv, lhs, rhs => createDiv lhs rhs
  | .nrem, lhs, rhs => createRem lhs rhs
  | .nshl, lhs, rhs => createShl lhs rhs
  | .nshr, lhs, rhs => createShr lhs rhs
  | .npow, lhs, rhs => createPow lhs rhs
  | .nand, lhs, rhs => createAnd lhs rhs
  | .nor, lhs, rhs => createOr lhs rhs
  | .nxor, lhs, rhs => createXor lhs rhs
  | .ncmpeq, lhs, rhs => createNCmpEQ lhs rhs
  | .ncmpne, lhs, rhs => createNCmpNE lhs rhs
  | .ncmple, lhs, rhs => createNCmpLE lhs rhs
  | .ncmpge, lhs, rhs => createNCmpGE lhs rhs
  | .ncmplt, lhs, rhs => createNCmpLT lhs rhs
  | .ncmpgt, lhs, rhs => createNCmpGT lhs rhs
  | .sadd, lhs, rhs => createSAdd lhs rhs
  | .scmpeq, lhs, rhs => createSCmpEQ lhs rhs
  | .scmpne, lhs, rhs => createSCmpNE lhs rhs
  | .scmple, lhs, rhs => createSCmpLE lhs rhs
  | .scmpge, lhs, rhs => createSCmpGE lhs rhs
  | .scmplt, lhs, rhs => createSCmpLT lhs rhs
  | .scmpgt, lhs, rhs => createSCmpGT lhs rhs
  | .scmpbeg, lhs, rhs => createSCmpEB lhs rhs
  | .scmpend, lhs, rhs => createSCmpEE lhs rhs
  | .scontains, lhs, rhs => createSIn lhs rhs
  | _, _, _ => none

/-- `codegen`: the value of an expression, and the builder with its code; `none` where an assertion
fails, an exception is thrown or folding is undefined. -/
def Expr.codegen (b : IrBuilder) : Expr → Option (Value × IrBuilder)
  | number n => some (.const (.int n), b)
  | string s => some (.const (.string s), b)
  | boolean a => some (.const (.boolean a), b)
  | var id type => some (b.createLoad id type)
  | unary op e => do
    let (rhs, b) ← e.codegen b
    return b.insert (← unaryOps op rhs)
  | binary op l r => do
    let (lhs, b) ← l.codegen b
    let (rhs, b) ← r.codegen b
    return b.insert (← binaryOps op lhs rhs)

end Xzero.Flow
