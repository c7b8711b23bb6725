import Xzero.Flow.TargetCodeGenerator
import Xzero.Library.Agreement

/-!
# What emitted code computes

The code a visitor emits, run by the machine. A generator that has room left for its registers and
constants (`HasRoom`: they are numbered with sixteen bits, and the first operand of an instruction
must leave its highest bit free) emits code that touches no register in use before, and computes its
result from what it *loaded* of the operands: of a constant number that is not always the number
(`Constant.loaded`).

**`visitBinary_yields_iff` and `visitUnary_yields_iff` give the exact result of every visitor**;
what is right about it and what is not is a matter of arithmetic then.
-/

namespace Xzero.Flow

open Vm Ir Runner Function List Option BinaryOp

/-! ### Pools that grow -/

/-- Everything the one pool holds the other holds at the same place. -/
def Vm.ConstantPool.Sub (p q : ConstantPool) : Prop :=
  p.numbers <+: q.numbers ∧ p.strings <+: q.strings

namespace Vm.ConstantPool.Sub

variable {p q r : ConstantPool}

theorem refl (p : ConstantPool) : p.Sub p := ⟨prefix_refl _, prefix_refl _⟩

theorem trans (h : p.Sub q) (h' : q.Sub r) : p.Sub r := ⟨h.1.trans h'.1, h.2.trans h'.2⟩

variable {i : ℕ}

theorem numbers_get {n : Word} (h : p.Sub q) (hi : p.numbers[i]? = some n) :
    q.numbers[i]? = some n := h.1.getElem?_of_some hi

theorem strings_get {s : Util.Bytes} (h : p.Sub q) (hi : p.strings[i]? = some s) :
    q.strings[i]? = some s := h.2.getElem?_of_some hi

end Vm.ConstantPool.Sub

/-! ### What is loaded of an operand -/

/-- What the register of a constant number holds: a negative number of sixteen bits loses its
sign. -/
def Word.loaded (n : Word) : Word := if n.IsInt16 then n.low16 else n

/-- What the register of a constant holds. -/
def Ir.Constant.loaded : Constant → Datum
  | .int n => .word n.loaded
  | c => c.datum

/-- What the register of an operand holds. -/
def Ir.Value.loaded (ρ : Env) : Value → Datum
  | .const c => c.loaded
  | .instr id _ => ρ id

namespace TargetCodeGenerator

variable {g g' g'' : TargetCodeGenerator} {data data' : Data} {ρ : Env} {x y : Value} {id n : ℕ}

/-! ### States of the generator -/

/-- There is room for `n` more registers and constants. -/
structure HasRoom (g : TargetCodeGenerator) (n : ℕ) : Prop where
  /-- Registers fit the first operand of an instruction. -/
  registers : g.allocations + n ≤ 2 ^ 15
  /-- Positions of numbers fit an operand. -/
  numbers : g.pool.numbers.length + n ≤ 2 ^ 16
  /-- Positions of strings fit an operand. -/
  strings : g.pool.strings.length + n ≤ 2 ^ 16

/-- The registers of the values hold them. -/
def Holds (g : TargetCodeGenerator) (ρ : Env) (data : Data) : Prop :=
  ∀ ⦃i r⦄, g.vars i = some r → r < g.allocations ∧ data r = ρ i

/-- An operand is a constant or has a register. -/
def Knows (g : TargetCodeGenerator) : Value → Prop
  | .const _ => True
  | .instr id _ => ∃ r, g.vars id = some r

def Keeps (g : TargetCodeGenerator) (data data' : Data) : Prop :=
  ∀ r < g.allocations, data' r = data r

/-- From `g` to `g'` code was appended which, run with any pool that has the constants, has the
outcome `out`. -/
def Emits (g g' : TargetCodeGenerator) (data : Data) (out : Option Data) : Prop :=
  ∃ code, g'.code = g.code ++ code ∧ g.pool.Sub g'.pool ∧
    ∀ pool, g'.pool.Sub pool → exec pool data code = out

theorem Emits.trans {out : Option Data} (h : g.Emits g' data (some data'))
    (h' : g'.Emits g'' data' out) : g.Emits g'' data out := by
  obtain ⟨code, hcode, hsub, hrun⟩ := h
  obtain ⟨code', hcode', hsub', hrun'⟩ := h'
  refine ⟨code ++ code', by rw [hcode', hcode, append_assoc], hsub.trans hsub', ?_⟩
  intro pool hpool
  rw [exec_append, hrun pool (hsub'.trans hpool)]
  exact hrun' pool hpool

theorem Emits.of_eq (hcode : g'.code = g.code) (hpool : g'.pool = g.pool) :
    g.Emits g' data (some data) :=
  ⟨[], by rw [hcode, append_nil], hpool ▸ ConstantPool.Sub.refl _, fun _ _ ↦ rfl⟩

variable {out : Option Datum} {opc : Opcode} {a b c : ℕ}

theorem emits_emit (hcode : g'.code = g.code) (hsub : g.pool.Sub g'.pool) (ha : a < 2 ^ 15)
    (h : ∀ pool, g'.pool.Sub pool → result pool data (b % 2 ^ 16) (c % 2 ^ 16) opc = out) :
    g.Emits (g'.emit opc a b c) data (out.map (update data a)) := by
  refine ⟨[makeInstruction opc a b c], by rw [emit, hcode], hsub, fun pool hpool ↦ ?_⟩
  rw [exec, operate_makeInstruction ha, h pool hpool]
  rcases out with - | v <;> rfl

variable {v : Datum}

theorem emits_emit_some (hcode : g'.code = g.code) (hsub : g.pool.Sub g'.pool) (ha : a < 2 ^ 15)
    (h : ∀ pool, g'.pool.Sub pool → result pool data (b % 2 ^ 16) (c % 2 ^ 16) opc = some v) :
    g.Emits (g'.emit opc a b c) data (some (update data a v)) :=
  emits_emit hcode hsub ha h

/-! ### Loading -/

/-- What `getRegister` guarantees. -/
structure Loads (g : TargetCodeGenerator) (x : Value) (ρ : Env) (data data' : Data) : Prop where
  /-- The code it emits takes the one state to the other. -/
  emits : g.Emits (g.getRegister x).2 data (some data')
  reg_lt : (g.getRegister x).1 < (g.getRegister x).2.allocations
  /-- It holds what is loaded of the operand. -/
  value : data' (g.getRegister x).1 = x.loaded ρ
  /-- The registers in use before are as before. -/
  keeps : g.Keeps data data'
  allocations : g.allocations ≤ (g.getRegister x).2.allocations
  /-- At most one place of each kind is used up. -/
  room : ∀ {n}, g.HasRoom (n + 1) → (g.getRegister x).2.HasRoom n
  vars : (g.getRegister x).2.vars = g.vars

theorem HasRoom.allocations_lt (h : g.HasRoom (n + 1)) : g.allocations < 2 ^ 15 := by
  have := h.registers
  omega

theorem HasRoom.mono {m : ℕ} (h : g.HasRoom n) (hm : m ≤ n) : g.HasRoom m :=
  ⟨by have := h.registers; omega, by have := h.numbers; omega, by have := h.strings; omega⟩

theorem HasRoom.grow (h : g.HasRoom (n + 1)) (hreg : g'.allocations ≤ g.allocations + 1)
    (hnum : g'.pool.numbers.length ≤ g.pool.numbers.length + 1)
    (hstr : g'.pool.strings.length ≤ g.pool.strings.length + 1) : g'.HasRoom n :=
  ⟨by have := h.registers; omega, by have := h.numbers; omega, by have := h.strings; omega⟩

theorem loadConstant_fst (c : Constant) : (g.loadConstant c).1 = g.allocations := by
  rcases c with number | b | s
  · by_cases h : number.IsInt16 <;> simp [loadConstant, allocate, h]
  · rfl
  · rfl

theorem loadConstant_allocations (c : Constant) :
    (g.loadConstant c).2.allocations = g.allocations + 1 := by
  rcases c with number | b | s
  · by_cases h : number.IsInt16 <;> simp [loadConstant, allocate, emit, h]
  · rfl
  · rfl

theorem loadConstant_vars (c : Constant) : (g.loadConstant c).2.vars = g.vars := by
  rcases c with number | b | s
  · by_cases h : number.IsInt16 <;> simp [loadConstant, allocate, emit, h]
  · rfl
  · rfl

theorem loadConstant_room (c : Constant) (h : g.HasRoom (n + 1)) :
    (g.loadConstant c).2.HasRoom n := by
  have hreg : (g.loadConstant c).2.allocations ≤ g.allocations + 1 := (loadConstant_allocations c).le
  rcases c with number | b | s
  · by_cases hint : number.IsInt16
    · refine h.grow hreg ?_ ?_ <;> simp [loadConstant, allocate, emit, hint]
    · have hlen := length_ensureValue_le g.pool.numbers number
      refine h.grow hreg ?_ ?_ <;> simp [loadConstant, allocate, emit, hint, hlen]
  · exact h.grow hreg (Nat.le_succ _) (Nat.le_succ _)
  · exact h.grow hreg (Nat.le_succ _) (length_ensureValue_le g.pool.strings s)

theorem emits_loadConstant (c : Constant) (h : g.HasRoom (n + 1)) :
    g.Emits (g.loadConstant c).2 data (some (update data g.allocations c.loaded)) := by
  have hreg := h.allocations_lt
  have hrefl := ConstantPool.Sub.refl g.pool
  rcases c with number | b | s
  · by_cases hint : number.IsInt16
    · simp only [loadConstant, allocate, hint, if_true, Constant.loaded, Word.loaded]
      exact emits_emit_some rfl hrefl hreg fun _ _ ↦ rfl
    · have hlt := ensureValue_lt g.pool.numbers number
      have hnum := h.numbers
      have hget := getElem?_ensureValue g.pool.numbers number
      simp only [loadConstant, allocate, hint, if_false, Constant.loaded, Word.loaded]
      refine emits_emit_some rfl ⟨prefix_ensureValue _ _, prefix_refl _⟩ hreg ?_
      intro pool hpool
      rw [Nat.mod_eq_of_lt (by omega)]
      exact congrArg (Option.map Datum.word) (hpool.numbers_get hget)
  · exact emits_emit_some rfl hrefl hreg fun _ _ ↦ by cases b <;> rfl
  · have hlt := ensureValue_lt g.pool.strings s
    have hstr := h.strings
    have hget := getElem?_ensureValue g.pool.strings s
    simp only [loadConstant, allocate]
    refine emits_emit_some rfl ⟨prefix_refl _, prefix_ensureValue _ _⟩ hreg ?_
    intro pool hpool
    rw [Nat.mod_eq_of_lt (by omega)]
    exact congrArg (Option.map Datum.string) (hpool.strings_get hget)

/-- **An operand is loaded into a register in use**, and nothing else changes. -/
theorem exists_loads (hroom : g.HasRoom (n + 1)) (hx : g.Knows x) (hholds : g.Holds ρ data) :
    ∃ data', g.Loads x ρ data data' := by
  have hreg := hroom.allocations_lt
  rcases x with c | ⟨id, type⟩
  · have hfst : (g.getRegister (.const c)).1 = g.allocations := by
      show (g.loadConstant c).1 % 2 ^ 16 = _
      rw [loadConstant_fst, Nat.mod_eq_of_lt (by omega)]
    have halloc : (g.getRegister (.const c)).2.allocations = g.allocations + 1 :=
      loadConstant_allocations c
    refine ⟨update data g.allocations c.loaded, emits_loadConstant c hroom, ?_, ?_, ?_,
      ?_, loadConstant_room c, loadConstant_vars c⟩
    · rw [hfst, halloc]
      exact Nat.lt_succ_self _
    · rw [hfst, update_self]
      rfl
    · intro r hr
      exact update_of_ne (ne_of_lt hr) _ _
    · rw [halloc]
      exact Nat.le_succ _
  · obtain ⟨reg, hvar⟩ := hx
    obtain ⟨hlt, hval⟩ := hholds hvar
    have hget : g.getRegister (.instr id type) = (reg, g) := by
      rw [getRegister, hvar]
      show (reg % 2 ^ 16, g) = _
      rw [Nat.mod_eq_of_lt (by omega)]
    refine ⟨data, ?_, ?_, ?_, fun r _ ↦ rfl, ?_, ?_, ?_⟩
    · rw [hget]
      exact Emits.of_eq rfl rfl
    · rwa [hget]
    · rw [hget]
      exact hval
    · rw [hget]
    · intro n h
      rw [hget]
      exact h.mono (Nat.le_succ n)
    · rw [hget]

theorem Loads.holds (h : g.Loads x ρ data data') (hholds : g.Holds ρ data) :
    (g.getRegister x).2.Holds ρ data' := by
  intro i r hr
  rw [h.vars] at hr
  obtain ⟨hlt, hval⟩ := hholds hr
  exact ⟨lt_of_lt_of_le hlt h.allocations, by rw [h.keeps r hlt, hval]⟩

theorem Loads.knows (h : g.Loads x ρ data data') (hy : g.Knows y) :
    (g.getRegister x).2.Knows y := by
  rcases y with c | ⟨i, type⟩
  · trivial
  · obtain ⟨r, hr⟩ := hy
    exact ⟨r, by rw [h.vars, hr]⟩

/-! ### The register of the result -/

theorem HasRoom.allocateFor (h : g.HasRoom (n + 1)) : (g.allocateFor id).2.HasRoom n :=
  h.grow (le_refl (g.allocations + 1)) (Nat.le_succ _) (Nat.le_succ _)

theorem Holds.allocateFor (h : g.Holds ρ data) :
    (g.allocateFor id).2.Holds (update ρ id (data g.allocations)) data := by
  intro i r hr
  by_cases hi : i = id
  · subst hi
    rw [show (g.allocateFor i).2.vars i = some g.allocations from update_self ..] at hr
    obtain rfl := some.inj hr
    refine ⟨Nat.lt_succ_self _, ?_⟩
    rw [update_self]
  · rw [show (g.allocateFor id).2.vars i = g.vars i from update_of_ne hi ..] at hr
    obtain ⟨hlt, hval⟩ := h hr
    exact ⟨Nat.lt_succ_of_lt hlt, by rw [hval, update_of_ne hi]⟩

theorem Knows.allocateFor (h : g.Knows x) : (g.allocateFor id).2.Knows x := by
  rcases x with c | ⟨i, type⟩
  · trivial
  · obtain ⟨r, hr⟩ := h
    by_cases hi : i = id
    · subst hi
      exact ⟨g.allocations, update_self ..⟩
    · exact ⟨r, by rw [← hr]; exact update_of_ne hi ..⟩

theorem Knows.loaded_update (h : g.Knows x) (hid : g.vars id = none) (v : Datum) :
    x.loaded (update ρ id v) = x.loaded ρ := by
  rcases x with c | ⟨i, type⟩
  · rfl
  · obtain ⟨r, hr⟩ := h
    refine update_of_ne ?_ ..
    rintro rfl
    rw [hid] at hr
    cases hr

/-- What a visitor guarantees: the result has the next register, the code leaves `out` there and
touches no register in use, and three places of each kind suffice. -/
structure Computes (g g' : TargetCodeGenerator) (id : ℕ) (data : Data) (out : Option Datum) :
    Prop where
  emits : ∃ data', g.Keeps data data' ∧ g.Emits g' data (out.map (update data' g.allocations))
  vars : g'.vars = update g.vars id (some g.allocations)
  allocations : g.allocations < g'.allocations
  room : ∀ {n}, g.HasRoom (n + 3) → g'.HasRoom n

theorem HasRoom.emit (h : g.HasRoom n) :
    (g.emit opc a b c).HasRoom n := ⟨h.registers, h.numbers, h.strings⟩

theorem emitRegisters_eq (opc : Opcode) : g.emitRegisters id x y opc =
    (((g.allocateFor id).2.getRegister x).2.getRegister y).2.emit opc g.allocations
      ((g.allocateFor id).2.getRegister x).1
      (((g.allocateFor id).2.getRegister x).2.getRegister y).1 := rfl

section Computes

variable {opc : Opcode} (hroom : g.HasRoom 3) (hid : g.vars id = none) (hx : g.Knows x)
  (hholds : g.Holds ρ data)

include hroom hid hx hholds

/-- An instruction whose first operand is the result's register and whose second is the register of
`x`, with any third. -/
theorem computes_emit {c : ℕ} {f : Datum → Option Datum}
    (hf : ∀ pool data b, result pool data b (c % 2 ^ 16) opc = f (data b)) :
    g.Computes (((g.allocateFor id).2.getRegister x).2.emit opc g.allocations
      ((g.allocateFor id).2.getRegister x).1 c) id data (f (x.loaded ρ)) := by
  have hroom₁ : (g.allocateFor id).2.HasRoom 2 := hroom.allocateFor
  obtain ⟨data₁, hload⟩ := exists_loads hroom₁ hx.allocateFor hholds.allocateFor
  have hval := hload.value
  rw [hx.loaded_update hid] at hval
  have hreg := hload.reg_lt
  have hlt := (hload.room hroom₁).registers
  have hresult : g.allocations < 2 ^ 15 := hroom.allocations_lt
  refine ⟨⟨data₁, fun r hr ↦ hload.keeps r (Nat.lt_succ_of_lt hr), ?_⟩, hload.vars,
    hload.allocations, fun h ↦ ((hload.room h.allocateFor).mono (Nat.le_succ _)).emit⟩
  refine (Emits.of_eq rfl rfl : g.Emits (g.allocateFor id).2 data (some data)).trans
    (hload.emits.trans (emits_emit rfl (ConstantPool.Sub.refl _) hresult fun _ _ ↦ ?_))
  rw [hf, Nat.mod_eq_of_lt (by omega), hval]

theorem emitRegisters_computes {f : Datum → Datum → Option Datum} (hy : g.Knows y)
    (hf : ∀ pool data b c, result pool data b c opc = f (data b) (data c)) :
    g.Computes (g.emitRegisters id x y opc) id data (f (x.loaded ρ) (y.loaded ρ)) := by
  rw [emitRegisters_eq]
  have hroom₁ : (g.allocateFor id).2.HasRoom 2 := hroom.allocateFor
  obtain ⟨data₁, hload⟩ := exists_loads hroom₁ hx.allocateFor hholds.allocateFor
  have hroom₂ := hload.room hroom₁
  obtain ⟨data₂, hload'⟩ := exists_loads hroom₂ (hload.knows hy.allocateFor)
    (hload.holds hholds.allocateFor)
  -- The second operand's code leaves the first operand's register alone.
  have hval : data₂ ((g.allocateFor id).2.getRegister x).1 = x.loaded ρ := by
    rw [hload'.keeps _ hload.reg_lt, hload.value, hx.loaded_update hid]
  have hval' := hload'.value
  rw [hy.loaded_update hid] at hval'
  have hreg := hload.reg_lt
  have hreg' := hload'.reg_lt
  have hlt := hroom₂.registers
  have hlt' := (hload'.room hroom₂).registers
  have hresult : g.allocations < 2 ^ 15 := hroom.allocations_lt
  have hle : g.allocations < ((g.allocateFor id).2.getRegister x).2.allocations :=
    hload.allocations
  refine ⟨⟨data₂, fun r hr ↦ ?_, ?_⟩, hload'.vars.trans hload.vars,
    Nat.lt_of_lt_of_le hle hload'.allocations, fun h ↦
      (hload'.room (hload.room h.allocateFor)).emit⟩
  · rw [hload'.keeps r (by omega), hload.keeps r (Nat.lt_succ_of_lt hr)]
  refine (Emits.of_eq rfl rfl : g.Emits (g.allocateFor id).2 data (some data)).trans
    (hload.emits.trans (hload'.emits.trans
      (emits_emit rfl (ConstantPool.Sub.refl _) hresult fun _ _ ↦ ?_)))
  rw [hf, Nat.mod_eq_of_lt (by omega), Nat.mod_eq_of_lt (by omega), hval, hval']

end Computes

/-! ### The value a visitor leaves -/

/-- The code appended from `g` to `g'` leaves `v` in the register of `id`, and touches no register
in use. -/
def Yields (g g' : TargetCodeGenerator) (id : ℕ) (data : Data) (v : Datum) : Prop :=
  ∃ reg data', g'.vars id = some reg ∧ g.Emits g' data (some data') ∧ g.Keeps data data' ∧
    data' reg = v

theorem Emits.unique {out out' : Option Data} (h : g.Emits g' data out)
    (h' : g.Emits g' data out') : out = out' := by
  obtain ⟨code, hcode, -, hrun⟩ := h
  obtain ⟨code', hcode', -, hrun'⟩ := h'
  rw [hcode] at hcode'
  obtain rfl := append_cancel_left hcode'
  rw [← hrun _ (ConstantPool.Sub.refl _), ← hrun' _ (ConstantPool.Sub.refl _)]

theorem Computes.yields_iff (h : g.Computes g' id data out) :
    g.Yields g' id data v ↔ out = some v := by
  obtain ⟨data', hkeeps, hemits⟩ := h.emits
  have hreg : g'.vars id = some g.allocations := by rw [h.vars, update_self]
  constructor
  · rintro ⟨reg, data'', hreg', hemits', -, rfl⟩
    rw [hreg] at hreg'
    obtain rfl := some.inj hreg'
    rcases out with - | v
    · cases hemits.unique hemits'
    · obtain rfl := some.inj (hemits.unique hemits')
      rw [update_self]
  · rintro rfl
    refine ⟨g.allocations, _, hreg, hemits, fun r hr ↦ ?_, update_self ..⟩
    rw [update_of_ne (ne_of_lt hr), hkeeps r hr]

theorem Computes.exists_yields_iff (h : g.Computes g' id data out) :
    (∃ g'', some g' = some g'' ∧ g.Yields g'' id data v) ↔ out = some v := by
  rw [← h.yields_iff]
  exact ⟨by rintro ⟨g'', hg, h⟩; rwa [some.inj hg], fun h ↦ ⟨g', rfl, h⟩⟩

end TargetCodeGenerator

/-! ### The visitors -/

/-- A numeric instruction with a constant as its immediate. -/
def NumOp.withImmediate (op : NumOp) (x : Datum) (i : Word) : Option Datum :=
  x.toNumber >>= fun w ↦ (op.eval w i.low16).map .word

theorem NumOp.withImmediate_word (op : NumOp) (w i : Word) :
    op.withImmediate (.word w) i = (op.eval w i.low16).map .word := rfl

/-- What the code of `emitBinary` computes. -/
def NumOp.ofBinary (ρ : Env) (op : NumOp) : Value → Value → Option Datum
  | x, .const (.int i) => op.withImmediate (x.loaded ρ) i
  | x, y => (num op).vm (x.loaded ρ) (y.loaded ρ)

/-- What the code of `emitBinaryAssoc` computes. -/
def NumOp.ofBinaryAssoc (ρ : Env) (op : NumOp) : Value → Value → Option Datum
  | x, .const (.int i) => op.withImmediate (x.loaded ρ) i
  | .const (.int i), y => op.withImmediate (y.loaded ρ) i
  | x, y => (num op).vm (x.loaded ρ) (y.loaded ρ)

namespace Ir

/-- What the code selected for an operation computes. -/
def BinaryOp.selected (ρ : Env) (x y : Value) : BinaryOp → Option Datum
  | .num .pow => NumOp.pow.ofBinary ρ x y
  | .num op => op.ofBinaryAssoc ρ x y
  | .bor => band.vm (x.loaded ρ) (y.loaded ρ)
  | op => op.vm (x.loaded ρ) (y.loaded ρ)

/-- What the code selected for an operation with one operand computes, if there is any. -/
def UnaryOp.selected (ρ : Env) (x : Value) : UnaryOp → Option Datum
  | .ineg => (x.loaded ρ).toNumber.map fun w ↦ .word (-w)
  | .inot => (x.loaded ρ).toNumber.map fun w ↦ .word (~~~w)
  | .bnot => (x.loaded ρ).toNumber.map fun w ↦ .ofBool (decide (w = 0))
  | .slen => none
  | .sisempty => none
  | .toStr => match x.type with
    | .string => some (x.loaded ρ)
    | .number => (x.loaded ρ).toNumber.map fun w ↦ .string (Util.StringUtil.decimal w.toInt)
    | _ => none
  | .toNumber => match x.type with
    | .number => some (x.loaded ρ)
    | .string => (x.loaded ρ).toStr.map fun s ↦ .word ((Util.Buffer.toInt s).signExtend 64)
    | _ => none

end Ir

namespace TargetCodeGenerator

variable {g : TargetCodeGenerator} {data : Data} {ρ : Env} {x y : Value} {id : ℕ}
  (hroom : g.HasRoom 3) (hid : g.vars id = none) (hx : g.Knows x) (hy : g.Knows y)
  (hholds : g.Holds ρ data)

include hroom hid hx hholds

theorem emitImmediate_computes (op : NumOp) (i : Word) :
    g.Computes (g.emitImmediate id x i (ri op)) id data (op.withImmediate (x.loaded ρ) i) := by
  exact computes_emit (f := fun v ↦ op.withImmediate v i) hroom hid hx hholds
    fun _ _ _ ↦ result_ri op

theorem emitOpcode_computes (op : BinaryOp) (hy : g.Knows y) :
    g.Computes (g.emitRegisters id x y op.opcode) id data (op.vm (x.loaded ρ) (y.loaded ρ)) :=
  emitRegisters_computes hroom hid hx hholds hy fun _ _ _ _ ↦ result_opcode op

include hy

theorem emitBinary_computes (op : NumOp) :
    g.Computes (g.emitBinary id x y (rr op) (ri op)) id data (op.ofBinary ρ x y) := by
  rcases y with (i | b | s) | ⟨j, type⟩
  · exact emitImmediate_computes hroom hid hx hholds op i
  · exact emitOpcode_computes hroom hid hx hholds (.num op) hy
  · exact emitOpcode_computes hroom hid hx hholds (.num op) hy
  · exact emitOpcode_computes hroom hid hx hholds (.num op) hy

theorem emitBinaryAssoc_computes (op : NumOp) :
    g.Computes (g.emitBinaryAssoc id x y (rr op) (ri op)) id data (op.ofBinaryAssoc ρ x y) := by
  have hright := emitImmediate_computes hroom hid hx hholds op
  have hleft := emitImmediate_computes hroom hid hy hholds op
  have hboth := emitOpcode_computes hroom hid hx hholds (.num op) hy
  -- A constant number on the right comes first, then one on the left, then the registers.
  rcases y with (i | b | s) | ⟨j, type⟩
  · rcases x with (i' | b' | s') | ⟨j', type'⟩ <;> exact hright i
  all_goals
    rcases x with (i' | b' | s') | ⟨j', type'⟩
    exacts [hleft i', hboth, hboth, hboth]

/-- **What the code of an instruction with two operands computes.** -/
theorem visitBinary_computes (op : BinaryOp) :
    g.Computes (g.visitBinary id x y op) id data (op.selected ρ x y) := by
  have hregisters := fun op ↦ emitOpcode_computes hroom hid hx hholds op hy
  rcases op with op | - | - | - | - | op | - | - | -
  · have hassoc := emitBinaryAssoc_computes hroom hid hx hy hholds op
    cases op with
    | pow => exact emitBinary_computes hroom hid hx hy hholds .pow
    | _ => exact hassoc
  · exact hregisters .band
  · exact hregisters .band
  · exact hregisters .bxor
  · exact hregisters .sadd
  · have hscmp := hregisters (.scmp op)
    cases op <;> exact hscmp
  · exact hregisters .scmpBeg
  · exact hregisters .scmpEnd
  · exact hregisters .sin

omit hy

theorem emitUnary_computes {opc : Opcode} {f : Datum → Option Datum}
    (hf : ∀ pool data b c, result pool data b c opc = f (data b)) :
    g.Computes (g.emitUnary id x opc) id data (f (x.loaded ρ)) := by
  exact computes_emit hroom hid hx hholds fun _ _ _ ↦ hf ..

/-- The generator after a cast that is an alias. -/
def aliased (g : TargetCodeGenerator) (id : ℕ) (x : Value) : TargetCodeGenerator :=
  { (g.getRegister x).2 with
    vars := update (g.getRegister x).2.vars id (some (g.getRegister x).1) }

omit hroom hid hx hholds in
theorem visitCast_self {target : FlowType} (h : target = x.type) :
    g.visitCast id x target = some (g.aliased id x) := if_pos h

variable {v : Datum}

omit hid in
theorem aliased_yields_iff : g.Yields (g.aliased id x) id data v ↔ x.loaded ρ = v := by
  obtain ⟨data', hload⟩ := exists_loads hroom hx hholds
  constructor
  · rintro ⟨reg, data'', hreg, hemits, -, rfl⟩
    have hself : update (g.getRegister x).2.vars id (some (g.getRegister x).1) id = some reg := hreg
    rw [update_self] at hself
    obtain rfl := some.inj hself
    obtain rfl : data' = data'' := some.inj (Emits.unique hload.emits hemits)
    rw [hload.value]
  · rintro rfl
    exact ⟨_, data', update_self .., hload.emits, hload.keeps, hload.value⟩

/-- **What the code of an instruction with one operand computes**, where there is any: a register of
its own, or the register of the operand. -/
theorem visitUnary_cases (op : UnaryOp) : (g.visitUnary id x op = none ∧ op.selected ρ x = none) ∨
    (∃ g', g.visitUnary id x op = some g' ∧ g.Computes g' id data (op.selected ρ x)) ∨
    (g.visitUnary id x op = some (g.aliased id x) ∧ op.selected ρ x = some (x.loaded ρ)) := by
  -- An instruction that looks at one register only.
  have hemit : ∀ opc : Opcode,
      (∀ pool data b c, result pool data b c opc = result ⟨[], []⟩ (fun _ ↦ data b) 0 0 opc) →
      g.Computes (g.emitUnary id x opc) id data
        (result ⟨[], []⟩ (fun _ ↦ x.loaded ρ) 0 0 opc) := fun opc hf ↦
    emitUnary_computes (f := fun w ↦ result ⟨[], []⟩ (fun _ ↦ w) 0 0 opc) hroom hid hx hholds hf
  cases op with
  | ineg => exact .inr (.inl ⟨_, rfl, hemit .nneg fun _ _ _ _ ↦ rfl⟩)
  | inot => exact .inr (.inl ⟨_, rfl, hemit .nnot fun _ _ _ _ ↦ rfl⟩)
  | bnot => exact .inr (.inl ⟨_, rfl, hemit .bnot fun _ _ _ _ ↦ rfl⟩)
  | slen => exact .inl ⟨rfl, rfl⟩
  | sisempty => exact .inl ⟨rfl, rfl⟩
  | toStr =>
    rw [visitUnary, UnaryOp.selected]
    cases htype : x.type with
    | string => exact .inr (.inr ⟨visitCast_self htype.symm, rfl⟩)
    | number =>
      exact .inr (.inl ⟨_, by simp only [visitCast, htype, reduceCtorEq, if_false],
        hemit .i2s fun _ _ _ _ ↦ rfl⟩)
    | ipAddress =>
      exact .inr (.inl ⟨_, by simp only [visitCast, htype, reduceCtorEq, if_false],
        hemit .p2s fun _ _ _ _ ↦ rfl⟩)
    | cidr =>
      exact .inr (.inl ⟨_, by simp only [visitCast, htype, reduceCtorEq, if_false],
        hemit .c2s fun _ _ _ _ ↦ rfl⟩)
    | regExp =>
      exact .inr (.inl ⟨_, by simp only [visitCast, htype, reduceCtorEq, if_false],
        hemit .r2s fun _ _ _ _ ↦ rfl⟩)
    | _ => exact .inl ⟨by simp [visitCast, htype], rfl⟩
  | toNumber =>
    rw [visitUnary, UnaryOp.selected]
    cases htype : x.type with
    | number => exact .inr (.inr ⟨visitCast_self htype.symm, rfl⟩)
    | string =>
      exact .inr (.inl ⟨_, by simp only [visitCast, htype, reduceCtorEq, if_false],
        hemit .s2i fun _ _ _ _ ↦ rfl⟩)
    | _ => exact .inl ⟨by simp [visitCast, htype], rfl⟩

theorem visitUnary_yields_iff (op : UnaryOp) :
    (∃ g', g.visitUnary id x op = some g' ∧ g.Yields g' id data v) ↔ op.selected ρ x = some v := by
  obtain ⟨hnone, hsel⟩ | ⟨g', hsome, hcomputes⟩ | ⟨hsome, hsel⟩ :=
    visitUnary_cases hroom hid hx hholds op
  · rw [hnone, hsel]
    simp
  · rw [hsome]
    exact hcomputes.exists_yields_iff
  · rw [hsome, hsel, some_inj, ← aliased_yields_iff hroom hx hholds]
    exact ⟨by rintro ⟨g'', hg, h⟩; rwa [some.inj hg], fun h ↦ ⟨_, rfl, h⟩⟩

end TargetCodeGenerator

end Xzero.Flow
