import Xzero.Flow.Ir.Operation

/-!
# The builder

`xzero-flow/ir/IRBuilder.cc`: the `create` functions on booleans, numbers and strings and the casts
between them. With constant operands they return a constant, in some cases one of the operands, and
otherwise a new instruction.

A result is compared with what the machine computes for the instruction that was asked for
(`Request.Preserved`). **It is the same but for five kinds of requests** (`preserved_iff`): the
exclusive disjunction, which becomes a conjunction; a string to which the empty constant is added,
which becomes empty; the order of two constant strings; a constant string as a number; and a
constant power that needs 64 bits without a sign.
-/

namespace Xzero.Flow.Ir

open Util Vm Option BitVec Buffer StringUtil Datum

/-- What a `create` function returns: a value, or an instruction it has inserted. -/
inductive Created
  | value (v : Value)
  | instr (i : Computation)
  deriving DecidableEq, Repr

namespace Created

def int (n : Word) : Created := value (.const (.int n))

/-- `get(bool)`: a test of constants is a number. -/
def test (b : Bool) : Created := int (.ofBool b)

def vm (ρ : Env) : Created → Option Datum
  | value v => some (v.datum ρ)
  | instr i => i.vm ρ

end Created

open Created

/-! ### Booleans -/

def createBNot : Value → Created
  | .const (.boolean a) => value (.const (.boolean !a))
  | rhs => instr (.unary .bnot rhs)

def createBAnd : Value → Value → Created
  | .const (.boolean a), .const (.boolean b) => value (.const (.boolean (a && b)))
  | lhs, rhs => instr (.binary .band lhs rhs)

/-- `createBXor`. The instruction it inserts is a `BAndInstr`. -/
def createBXor : Value → Value → Created
  | .const (.boolean a), .const (.boolean b) => value (.const (.boolean (a ^^ b)))
  | lhs, rhs => instr (.binary .band lhs rhs)

/-! ### Numbers -/

def createNeg : Value → Created
  | .const (.int a) => int (-a)
  | rhs => instr (.unary .ineg rhs)

def createNot : Value → Created
  | .const (.int a) => int (~~~a)
  | rhs => instr (.unary .inot rhs)

/-- `powl` converted to the `int64_t` that `get` takes. -/
def powConstant (a b : Word) : Option Word :=
  powl a.toInt b.toInt >>= fun p ↦
    if -2 ^ 63 ≤ p ∧ p < 2 ^ 63 then some (BitVec.ofInt 64 p) else none

/-- An operation on two numbers: of constants `fold` is computed, which can be undefined. -/
def createNumbers (op : NumOp) (fold : Word → Word → Option Word) :
    Value → Value → Option Created
  | .const (.int a), .const (.int b) => (fold a b).map int
  | lhs, rhs => some (instr (.binary (.num op) lhs rhs))

def createAdd : Value → Value → Option Created := createNumbers .add fun a b ↦ some (a + b)

def createSub : Value → Value → Option Created := createNumbers .sub fun a b ↦ some (a - b)

def createMul : Value → Value → Option Created := createNumbers .mul fun a b ↦ some (a * b)

def createDiv : Value → Value → Option Created := createNumbers .div NumOp.div.eval

def createRem : Value → Value → Option Created := createNumbers .rem NumOp.rem.eval

def createShl : Value → Value → Option Created := createNumbers .shl NumOp.shl.eval

def createShr : Value → Value → Option Created := createNumbers .shr NumOp.shr.eval

def createPow : Value → Value → Option Created := createNumbers .pow powConstant

def createAnd : Value → Value → Option Created := createNumbers .and fun a b ↦ some (a &&& b)

def createOr : Value → Value → Option Created := createNumbers .or fun a b ↦ some (a ||| b)

def createXor : Value → Value → Option Created := createNumbers .xor fun a b ↦ some (a ^^^ b)

def createNCmpEQ : Value → Value → Option Created :=
  createNumbers .cmpEQ fun a b ↦ some (.ofBool (decide (a = b)))

def createNCmpNE : Value → Value → Option Created :=
  createNumbers .cmpNE fun a b ↦ some (.ofBool (decide (a ≠ b)))

def createNCmpLE : Value → Value → Option Created :=
  createNumbers .cmpLE fun a b ↦ some (.ofBool (decide (a.toInt ≤ b.toInt)))

def createNCmpGE : Value → Value → Option Created :=
  createNumbers .cmpGE fun a b ↦ some (.ofBool (decide (a.toInt ≥ b.toInt)))

def createNCmpLT : Value → Value → Option Created :=
  createNumbers .cmpLT fun a b ↦ some (.ofBool (decide (a.toInt < b.toInt)))

def createNCmpGT : Value → Value → Option Created :=
  createNumbers .cmpGT fun a b ↦ some (.ofBool (decide (a.toInt > b.toInt)))

def createNum : NumOp → Value → Value → Option Created
  | .add => createAdd
  | .sub => createSub
  | .mul => createMul
  | .div => createDiv
  | .rem => createRem
  | .shl => createShl
  | .shr => createShr
  | .pow => createPow
  | .and => createAnd
  | .or => createOr
  | .xor => createXor
  | .cmpEQ => createNCmpEQ
  | .cmpNE => createNCmpNE
  | .cmpLE => createNCmpLE
  | .cmpGE => createNCmpGE
  | .cmpLT => createNCmpLT
  | .cmpGT => createNCmpGT

/-! ### Strings -/

/-- `createSAdd`. With an empty constant on the left it returns the other operand, with one on the
right the constant. -/
def createSAdd : Value → Value → Created
  | .const (.string a), .const (.string b) => value (.const (.string (a ++ b)))
  | .const (.string a), rhs =>
    if a.isEmpty then value rhs else instr (.binary .sadd (.const (.string a)) rhs)
  | lhs, .const (.string b) =>
    if b.isEmpty then value (.const (.string b)) else instr (.binary .sadd lhs (.const (.string b)))
  | lhs, rhs => instr (.binary .sadd lhs rhs)

def createTest (op : BinaryOp) (test : Bytes → Bytes → Bool) : Value → Value → Created
  | .const (.string a), .const (.string b) => .test (test a b)
  | lhs, rhs => instr (.binary op lhs rhs)

def createSCmpEQ : Value → Value → Created :=
  createTest (.scmp .eq) fun a b ↦ decide (a = b)

def createSCmpNE : Value → Value → Created :=
  createTest (.scmp .ne) fun a b ↦ decide (a ≠ b)

def createSCmpLE : Value → Value → Created :=
  createTest (.scmp .le) fun a b ↦ decide (a ≤ b)

def createSCmpGE : Value → Value → Created :=
  createTest (.scmp .ge) fun a b ↦ decide (b ≤ a)

def createSCmpLT : Value → Value → Created :=
  createTest (.scmp .lt) fun a b ↦ decide (a < b)

def createSCmpGT : Value → Value → Created :=
  createTest (.scmp .gt) fun a b ↦ decide (b < a)

/-- The function for a comparison of strings. -/
def createSCmp : StrCmp → Value → Value → Created
  | .eq => createSCmpEQ
  | .ne => createSCmpNE
  | .le => createSCmpLE
  | .ge => createSCmpGE
  | .lt => createSCmpLT
  | .gt => createSCmpGT

def createSCmpEB : Value → Value → Created := createTest .scmpBeg StringUtil.beginsWith

def createSCmpEE : Value → Value → Created := createTest .scmpEnd StringUtil.endsWith

def createSIn : Value → Value → Created := createTest .sin fun a b ↦ (find b a).isSome

/-! ### Casts -/

def createB2S : Value → Created
  | .const (.boolean a) => value (.const (.string (if a then trueText else falseText)))
  | rhs => instr (.unary .toStr rhs)

def createI2S : Value → Created
  | .const (.int i) => value (.const (.string (decimal i.toInt)))
  | rhs => instr (.unary .toStr rhs)

/-- `createS2I`; `none` where `stoi` throws. -/
def createS2I : Value → Option Created
  | .const (.string s) => (stoi s).map fun n ↦ int (BitVec.ofInt 64 n)
  | rhs => some (instr (.unary .toNumber rhs))

/-! ### Requests -/

/-- A call of a `create` function. -/
inductive Request
  | bnot (rhs : Value)
  | band (lhs rhs : Value)
  | bxor (lhs rhs : Value)
  | neg (rhs : Value)
  | not (rhs : Value)
  | num (op : NumOp) (lhs rhs : Value)
  | sadd (lhs rhs : Value)
  | scmp (op : StrCmp) (lhs rhs : Value)
  | scmpEB (lhs rhs : Value)
  | scmpEE (lhs rhs : Value)
  | sin (lhs rhs : Value)
  | b2s (rhs : Value)
  | i2s (rhs : Value)
  | s2i (rhs : Value)
  deriving DecidableEq, Repr

namespace Request

def create : Request → Option Created
  | bnot rhs => createBNot rhs
  | band lhs rhs => createBAnd lhs rhs
  | bxor lhs rhs => createBXor lhs rhs
  | neg rhs => createNeg rhs
  | not rhs => createNot rhs
  | num op lhs rhs => createNum op lhs rhs
  | sadd lhs rhs => createSAdd lhs rhs
  | scmp op lhs rhs => createSCmp op lhs rhs
  | scmpEB lhs rhs => createSCmpEB lhs rhs
  | scmpEE lhs rhs => createSCmpEE lhs rhs
  | sin lhs rhs => createSIn lhs rhs
  | b2s rhs => createB2S rhs
  | i2s rhs => createI2S rhs
  | s2i rhs => createS2I rhs

/-- The instruction that was asked for. -/
def instr : Request → Computation
  | bnot rhs => .unary .bnot rhs
  | band lhs rhs => .binary .band lhs rhs
  | bxor lhs rhs => .binary .bxor lhs rhs
  | neg rhs => .unary .ineg rhs
  | not rhs => .unary .inot rhs
  | num op lhs rhs => .binary (.num op) lhs rhs
  | sadd lhs rhs => .binary .sadd lhs rhs
  | scmp op lhs rhs => .binary (.scmp op) lhs rhs
  | scmpEB lhs rhs => .binary .scmpBeg lhs rhs
  | scmpEE lhs rhs => .binary .scmpEnd lhs rhs
  | sin lhs rhs => .binary .sin lhs rhs
  | b2s rhs => .unary .toStr rhs
  | i2s rhs => .unary .toStr rhs
  | s2i rhs => .unary .toNumber rhs

/-- The types the functions assert of their operands. -/
def WellTyped : Request → Prop
  | b2s rhs => rhs.type = .boolean
  | i2s rhs => rhs.type = .number
  | s2i rhs => rhs.type = .string
  | r => r.instr.WellTyped

/-- What the function returns evaluates to the value the machine computes for the instruction. -/
def Preserved (ρ : Env) (r : Request) : Prop :=
  ∀ v, r.instr.vm ρ = some v → r.create >>= vm ρ = some v

/-- A string that `stoi` reads as the machine does: there is a number of 32 bits, and no white space
before it unless it is zero. -/
def NumberRead (s : Bytes) : Prop :=
  ∃ n, stoi s = some n ∧ (n = 0 ∨ s.head?.all fun b ↦ !isSpace b)

/-- The requests that are answered well. -/
def Kept (ρ : Env) : Request → Prop
  | bxor (.const (.boolean _)) (.const (.boolean _)) => True
  | bxor lhs rhs => lhs.datum ρ = .ofBool false ∧ rhs.datum ρ = .ofBool false
  | num .pow (.const (.int a)) (.const (.int b)) =>
    ∀ p, powl a.toInt b.toInt = some p → ¬(2 ^ 63 ≤ p ∧ p < 2 ^ 64)
  | sadd (.instr id _) (.const (.string b)) => b = [] → ρ id = .string []
  | scmp op (.const (.string a)) (.const (.string b)) => op.Kept a b
  | s2i (.const (.string s)) => NumberRead s
  | _ => True

/-! ### The table is exact -/

section

variable {ρ : Env} {lhs rhs : Value}

theorem preserved_of_create {r : Request} (h : r.create = some (.instr r.instr)) :
    r.Preserved ρ := by
  intro v hv
  rw [h]
  exact hv

theorem preserved_iff_of_vm {r : Request} {v : Datum} (h : r.instr.vm ρ = some v) :
    r.Preserved ρ ↔ r.create >>= vm ρ = some v := by
  constructor
  · intro hr
    exact hr v h
  · intro hr v' hv'
    rwa [← hv', h]

theorem preserved_bnot (hx : rhs.type = .boolean) : (bnot rhs).Preserved ρ := by
  rcases rhs with (c | b | s) | ⟨i, type⟩ <;> try cases hx
  · refine (preserved_iff_of_vm ?_).2 rfl
    cases b <;> rfl
  · exact preserved_of_create rfl

theorem preserved_band (hx : lhs.type = .boolean) (hy : rhs.type = .boolean) :
    (band lhs rhs).Preserved ρ := by
  rcases lhs with (c | a | s) | ⟨i, type⟩ <;> try cases hx
  · rcases rhs with (c | b | s) | ⟨j, type'⟩ <;> try cases hy
    · refine (preserved_iff_of_vm ?_).2 rfl
      cases a <;> cases b <;> rfl
    · exact preserved_of_create rfl
  · exact preserved_of_create (by cases rhs <;> rfl)

/-- The conjunction of two booleans is their exclusive disjunction only if both are false. -/
theorem preserved_band_for_bxor {x y : Datum} {a b : Bool} (hx : x = .ofBool a)
    (hy : y = .ofBool b) : (∀ v, BinaryOp.bxor.vm x y = some v → BinaryOp.band.vm x y = some v) ↔
      x = .ofBool false ∧ y = .ofBool false := by
  subst hx hy
  cases a <;> cases b <;> simp +decide

theorem preserved_bxor_iff (hx : lhs.type = .boolean) (hy : rhs.type = .boolean)
    (htyped : (bxor lhs rhs).instr.Typed ρ) : (bxor lhs rhs).Preserved ρ ↔ (bxor lhs rhs).Kept ρ := by
  obtain ⟨hxt, hyt⟩ := htyped
  rw [hx, hasType_boolean_iff] at hxt
  rw [hy, hasType_boolean_iff] at hyt
  obtain ⟨a, ha⟩ := hxt
  obtain ⟨b, hb⟩ := hyt
  have hband := preserved_band_for_bxor ha hb
  rcases lhs with (c | a | s) | ⟨i, type⟩ <;> try cases hx
  · rcases rhs with (c | b | s) | ⟨j, type'⟩ <;> try cases hy
    · refine iff_of_true ((preserved_iff_of_vm ?_).2 rfl) trivial
      cases a <;> cases b <;> rfl
    · exact hband
  · rcases rhs with (c | b | s) | ⟨j, type'⟩ <;> try cases hy
    · exact hband
    · exact hband

/-! ### Numbers -/

theorem preserved_num_instr (op : NumOp)
    (h : ∀ fold, createNumbers op fold lhs rhs = some (.instr (.binary (.num op) lhs rhs))) :
    (num op lhs rhs).Preserved ρ := by
  refine preserved_of_create ?_
  cases op <;> exact h _

/-- Constants other than those of powers are computed as the machine computes them. -/
theorem createNum_constants {op : NumOp} (hop : op ≠ .pow) (a b : Word) :
    createNum op (.const (.int a)) (.const (.int b)) = (op.eval a b).map int := by
  cases op <;> first | rfl | exact (hop rfl).elim

theorem preserved_num_constants {op : NumOp} (hop : op ≠ .pow) (a b : Word) :
    (num op (.const (.int a)) (.const (.int b))).Preserved ρ := by
  intro v hv
  change (BinaryOp.num op).vm (.word a) (.word b) = some v at hv
  rw [vm_num] at hv
  rw [create, createNum_constants hop]
  rcases hval : op.eval a b with - | n
  · rw [hval] at hv
    cases hv
  · rw [hval] at hv
    exact hv

theorem preserved_pow_iff (a b : Word) :
    (num .pow (.const (.int a)) (.const (.int b))).Preserved ρ ↔
      ∀ p, powl a.toInt b.toInt = some p → ¬(2 ^ 63 ≤ p ∧ p < 2 ^ 64) := by
  rcases hpow : powl a.toInt b.toInt with - | p
  · refine iff_of_true (fun v hv ↦ ?_) nofun
    change (powl a.toInt b.toInt >>= toRegister).map .word = some v at hv
    rw [hpow] at hv
    cases hv
  · have hvm : (num .pow (.const (.int a)) (.const (.int b))).instr.vm ρ =
        (toRegister p).map .word := by
      show (powl a.toInt b.toInt >>= toRegister).map word = _
      rw [hpow]
      rfl
    have hcreate : (num .pow (.const (.int a)) (.const (.int b))).create >>= vm ρ =
        (if -2 ^ 63 ≤ p ∧ p < 2 ^ 63 then some (BitVec.ofInt 64 p) else none).map word := by
      show ((powl a.toInt b.toInt >>= fun p ↦ if -2 ^ 63 ≤ p ∧ p < 2 ^ 63 then
        some (BitVec.ofInt 64 p) else none).map int) >>= vm ρ = _
      rw [hpow]
      show (Option.map int (ite _ _ _)) >>= vm ρ = _
      split <;> rfl
    rw [Preserved, hvm, hcreate, toRegister]
    simp only [some_inj, forall_eq']
    by_cases hin : -2 ^ 63 ≤ p ∧ p < 2 ^ 63
    · rw [if_pos hin, if_pos ⟨hin.1, by omega⟩]
      exact iff_of_true (fun _ h ↦ h) (by omega)
    · rw [if_neg hin]
      by_cases hout : -2 ^ 63 ≤ p ∧ p < 2 ^ 64
      · rw [if_pos hout]
        exact iff_of_false (fun h ↦ nomatch h _ rfl) (fun h ↦ h (by omega))
      · rw [if_neg hout]
        exact iff_of_true (fun _ h ↦ nomatch h) (by omega)

/-! ### Strings and casts -/

/-- Where the left operand is not a constant and the right one is empty, the left one is lost. -/
theorem preserved_sadd_iff (hx : lhs.type = .string) (hy : rhs.type = .string)
    (htyped : (sadd lhs rhs).instr.Typed ρ) : (sadd lhs rhs).Preserved ρ ↔ (sadd lhs rhs).Kept ρ := by
  obtain ⟨hxt, hyt⟩ := htyped
  rw [hx, hasType_string_iff] at hxt
  rw [hy, hasType_string_iff] at hyt
  obtain ⟨a, ha⟩ := hxt
  obtain ⟨b, hb⟩ := hyt
  have hvm : (sadd lhs rhs).instr.vm ρ = some (.string (a ++ b)) := by
    show BinaryOp.sadd.vm (lhs.datum ρ) (rhs.datum ρ) = _
    rw [ha, hb, vm_sadd]
  rcases lhs with (c | c | s) | ⟨i, type⟩ <;> try cases hx
  · cases ha
    rcases rhs with (c | c | t) | ⟨j, type'⟩ <;> try cases hy
    · cases hb
      exact iff_of_true ((preserved_iff_of_vm hvm).2 rfl) trivial
    · refine iff_of_true ?_ trivial
      rcases a with - | ⟨h, t⟩
      · rw [preserved_iff_of_vm hvm]
        exact congrArg some hb
      · exact preserved_of_create rfl
  · rcases rhs with (c | c | t) | ⟨j, type'⟩ <;> try cases hy
    · cases hb
      rcases b with - | ⟨h, t⟩
      · rw [preserved_iff_of_vm hvm, List.append_nil, Kept]
        change ρ i = _ at ha
        rw [ha]
        show some (string []) = some (.string a) ↔ _
        simp [eq_comm]
      · exact iff_of_true (preserved_of_create rfl) nofun
    · exact iff_of_true (preserved_of_create rfl) trivial

theorem preserved_test_iff {r : Request} {op : BinaryOp} {test vmTest : Bytes → Bytes → Bool}
    (hinstr : r.instr = .binary op lhs rhs) (hcreate : r.create = createTest op test lhs rhs)
    (hvm : ∀ a b, op.vm (.string a) (.string b) = some (.ofBool (vmTest a b)))
    (hx : lhs.type = .string) (hy : rhs.type = .string) :
    r.Preserved ρ ↔ ∀ a b, lhs = .const (.string a) → rhs = .const (.string b) →
      vmTest a b = test a b := by
  rcases lhs with (c | c | a) | ⟨i, type⟩ <;> try cases hx
  · rcases rhs with (c | c | b) | ⟨j, type'⟩ <;> try cases hy
    · have hval : r.instr.vm ρ = some (.ofBool (vmTest a b)) := by
        rw [hinstr]
        exact hvm a b
      rw [preserved_iff_of_vm hval, hcreate]
      show some (Datum.ofBool (test a b)) = some (.ofBool (vmTest a b)) ↔ _
      rw [some_inj, datum_ofBool_inj]
      constructor
      · rintro h _ _ ⟨⟩ ⟨⟩
        exact h.symm
      · intro h
        exact (h a b rfl rfl).symm
    · exact iff_of_true (preserved_of_create (by rw [hcreate, hinstr]; rfl)) nofun
  · exact iff_of_true (preserved_of_create (by rw [hcreate, hinstr]; cases rhs <;> rfl)) nofun

theorem preserved_scmp_iff (op : StrCmp) (hx : lhs.type = .string) (hy : rhs.type = .string) :
    (scmp op lhs rhs).Preserved ρ ↔ (scmp op lhs rhs).Kept ρ := by
  have hcreate : (scmp op lhs rhs).create = createTest (.scmp op) op.eval lhs rhs := by
    cases op <;> rfl
  rw [preserved_test_iff rfl hcreate (fun a b ↦ vm_scmp a b op) hx hy]
  simp only [StrCmp.vm_eq_eval_iff]
  rcases lhs with (c | c | a) | ⟨i, type⟩ <;> try cases hx
  · rcases rhs with (c | c | b) | ⟨j, type'⟩ <;> try cases hy
    · constructor
      · intro h
        exact h a b rfl rfl
      · rintro h _ _ ⟨⟩ ⟨⟩
        exact h
    · exact iff_of_true nofun trivial
  · exact iff_of_true nofun trivial

theorem preserved_b2s (hx : rhs.type = .boolean) : (b2s rhs).Preserved ρ := by
  intro v hv
  change UnaryOp.toStr.vm rhs.type (rhs.datum ρ) = some v at hv
  rw [hx] at hv
  cases hv

/-- A constant string is read as the machine reads it exactly if it is `NumberRead`. -/
theorem preserved_s2i_iff (hx : rhs.type = .string) : (s2i rhs).Preserved ρ ↔ (s2i rhs).Kept ρ := by
  rcases rhs with (c | b | s) | ⟨i, type⟩ <;> try cases hx
  · have hvm : (s2i (.const (.string s))).instr.vm ρ =
        some (.word ((toInt s).signExtend 64)) := rfl
    rw [preserved_iff_of_vm hvm, Kept, NumberRead]
    show ((stoi s).map fun n ↦ int (BitVec.ofInt 64 n)) >>= vm ρ = _ ↔ _
    rcases hstoi : stoi s with - | n
    · simp
    · show some (word (BitVec.ofInt 64 n)) = some (.word (BitVec.ofInt 64 _)) ↔ _
      have hrange := (stoi_eq_some_iff.1 hstoi).2
      have hword := @toInt_lt 32 (toInt s)
      have hword' := le_toInt (toInt s)
      have hinj : BitVec.ofInt 64 n = BitVec.ofInt 64 (Buffer.toInt s).toInt ↔
          (toInt s).toInt = n := by
        rw [← toInt_inj, toInt_ofInt, toInt_ofInt,
          Int.bmod_eq_of_le (by omega) (by omega), Int.bmod_eq_of_le (by omega) (by omega), eq_comm]
      rw [some_inj, word.injEq, hinj, toInt_eq_iff hstoi]
      simp
  · exact iff_of_true (preserved_of_create rfl) trivial

theorem preserved_num_iff (op : NumOp) (hx : lhs.type = .number) (hy : rhs.type = .number) :
    (num op lhs rhs).Preserved ρ ↔ (num op lhs rhs).Kept ρ := by
  rcases lhs with (a | c | s) | ⟨i, type⟩ <;> try cases hx
  · rcases rhs with (b | c | s) | ⟨j, type'⟩ <;> try cases hy
    · by_cases hop : op = .pow
      · subst hop
        exact preserved_pow_iff a b
      · refine iff_of_true (preserved_num_constants hop a b) ?_
        cases op <;> trivial
    · refine iff_of_true (preserved_num_instr op fun _ ↦ rfl) ?_
      cases op <;> trivial
  · refine iff_of_true (preserved_num_instr op fun _ ↦ by cases rhs <;> rfl) ?_
    cases op <;> cases rhs <;> trivial

end

end Request

end Xzero.Flow.Ir
