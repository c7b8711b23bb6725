import Xzero.Flow.IrGenerator
import Xzero.Flow.Selection

/-!
# Straight code

The code of an expression, instruction by instruction. `Ins.selected` says what the code selected
for one instruction does to the values of the instructions before; `run` says it of a list. **The
machine, given the code that was generated of a list of instructions, does what `run` says**
(`generate_run`, `generate_fails`): in the end the registers hold the values of all instructions, or
it traps.
-/

namespace Xzero.Flow

open Function Ir List Option TargetCodeGenerator Util Vm

/-- A constant, or an instruction with a number below `n`. -/
def Ir.Value.Below (n : ℕ) : Value → Prop
  | .const _ => True
  | .instr id _ => id < n

namespace Ins

/-- The generator's visitor. A loaded variable shares the variable's register. -/
def visit (g : TargetCodeGenerator) : Ins → Option TargetCodeGenerator
  | compute id c => c.visit g id
  | load id var => some (g.aliased id (.instr var .void))

/-- What an instruction's code does to the values. -/
def selected (ρ : Env) : Ins → Option Env
  | compute id c => (c.selected ρ).map (update ρ id)
  | load id var => some (update ρ id (ρ var))

/-- The operands have numbers below `n`. -/
def Uses (n : ℕ) : Ins → Prop
  | compute _ (.unary _ x) => x.Below n
  | compute _ (.binary _ x y) => x.Below n ∧ y.Below n
  | load _ var => var < n

end Ins

/-- What the code of a list of instructions does to the values. -/
def run (ρ : Env) : List Ins → Option Env
  | [] => some ρ
  | i :: code => i.selected ρ >>= fun ρ ↦ run ρ code

/-- The code of a list of instructions. -/
def generate (g : TargetCodeGenerator) : List Ins → Option TargetCodeGenerator
  | [] => some g
  | i :: code => i.visit g >>= fun g ↦ generate g code

/-- Instructions numbered from `n` on, each with operands before it. -/
def Scoped (n : ℕ) : List Ins → Prop
  | [] => True
  | i :: code => i.id = n ∧ i.Uses n ∧ Scoped (n + 1) code

/-! ### The generator along straight code -/

/-- The instructions that have a register are those with numbers below `n`. -/
def KnowsBelow (g : TargetCodeGenerator) (n : ℕ) : Prop := ∀ i, (∃ r, g.vars i = some r) ↔ i < n

section Step

variable {g g' : TargetCodeGenerator} {data : Runner.Data} {ρ : Env} {x : Value} {n k : ℕ}

theorem KnowsBelow.knows (h : KnowsBelow g n) (hx : x.Below n) : g.Knows x := by
  rcases x with c | ⟨i, type⟩
  · trivial
  · exact (h i).2 hx

theorem KnowsBelow.fresh (h : KnowsBelow g n) : g.vars n = none := by
  by_contra hne
  obtain ⟨r, hr⟩ := ne_none_iff_exists'.1 hne
  exact lt_irrefl n ((h n).1 ⟨r, hr⟩)

theorem KnowsBelow.update {reg : ℕ} (h : KnowsBelow g n)
    (hvars : g'.vars = update g.vars n (some reg)) : KnowsBelow g' (n + 1) := by
  intro i
  rw [hvars]
  by_cases hi : i = n
  · subst hi
    rw [update_self]
    exact ⟨fun _ ↦ Nat.lt_succ_self i, fun _ ↦ ⟨reg, rfl⟩⟩
  · rw [update_of_ne hi, h i]
    omega

theorem TargetCodeGenerator.Holds.update {data' : Runner.Data} {reg : ℕ} {v : Datum}
    (h : g.Holds ρ data) (hvars : g'.vars = update g.vars n (some reg))
    (hkeeps : g.Keeps data data') (hle : g.allocations ≤ g'.allocations)
    (hreg : reg < g'.allocations) (hv : data' reg = v) :
    g'.Holds (update ρ n v) data' := by
  intro i r hr
  rw [hvars] at hr
  by_cases hi : i = n
  · subst hi
    rw [update_self] at hr
    obtain rfl := some.inj hr
    exact ⟨hreg, by rw [hv, update_self]⟩
  · rw [update_of_ne hi] at hr
    obtain ⟨hlt, hval⟩ := h hr
    exact ⟨lt_of_lt_of_le hlt hle, by rw [hkeeps r hlt, hval, update_of_ne hi]⟩

/-- The registers of the values are in use: a state in which all registers are the same holds the
values that are all the same. -/
def InRange (g : TargetCodeGenerator) : Prop := g.Holds (fun _ ↦ .word 0) fun _ ↦ .word 0

theorem TargetCodeGenerator.Holds.inRange (h : g.Holds ρ data) : InRange g :=
  fun _ _ hr ↦ ⟨(h hr).1, rfl⟩

/-- What a visitor does: it makes one more instruction known, and its code has the outcome `out`. -/
structure Advances (g g' : TargetCodeGenerator) (n : ℕ) (ρ : Env) (data : Runner.Data)
    (out : Option Env) : Prop where
  /-- One more instruction has a register. -/
  knows : KnowsBelow g n → KnowsBelow g' (n + 1)
  inRange : InRange g → InRange g'
  /-- Three places of each kind suffice. -/
  room : ∀ {k}, g.HasRoom (k + 3) → g'.HasRoom k
  fails : out = none → g.Emits g' data none
  /-- With a value it is in a register, as are all others. -/
  holds : ∀ ρ', out = some ρ' → ∃ data', g.Emits g' data (some data') ∧ g.Keeps data data' ∧
    g.allocations ≤ g'.allocations ∧ g'.Holds ρ' data'

theorem TargetCodeGenerator.Computes.advances {out : Option Datum} (h : g.Computes g' n data out)
    (hholds : g.Holds ρ data) : Advances g g' n ρ data (out.map (update ρ n)) := by
  obtain ⟨data', hkeeps, hemits⟩ := h.emits
  have hle := le_of_lt h.allocations
  refine ⟨fun hk ↦ hk.update h.vars, fun hin ↦ ?_, h.room, fun hnone ↦ ?_, fun ρ' hsome ↦ ?_⟩
  · exact (hin.update h.vars (fun _ _ ↦ rfl) hle h.allocations rfl).inRange
  · rw [map_eq_none_iff] at hnone
    rwa [hnone] at hemits
  · obtain ⟨v, rfl, rfl⟩ := map_eq_some_iff.1 hsome
    have hkeeps' : g.Keeps data (update data' g.allocations v) := fun r hr ↦ by
      rw [update_of_ne (ne_of_lt hr), hkeeps r hr]
    exact ⟨_, hemits, hkeeps', hle, hholds.update h.vars hkeeps' hle h.allocations (update_self ..)⟩

theorem aliased_advances (hroom : g.HasRoom 3) (hx : g.Knows x) (hholds : g.Holds ρ data) :
    Advances g (g.aliased n x) n ρ data (some (update ρ n (x.loaded ρ))) := by
  obtain ⟨data', hload⟩ := exists_loads hroom hx hholds
  have hvars : (g.aliased n x).vars = update g.vars n (some (g.getRegister x).1) := by
    rw [aliased, hload.vars]
  refine ⟨fun hk ↦ hk.update hvars, fun hin ↦ ?_, fun h ↦ ?_, nofun, ?_⟩
  · exact (hin.update hvars (fun _ _ ↦ rfl) hload.allocations hload.reg_lt rfl).inRange
  · have hroom' := hload.room (h.mono (Nat.add_le_add_left (by decide : 1 ≤ 3) _))
    exact ⟨hroom'.registers, hroom'.numbers, hroom'.strings⟩
  · rintro _ ⟨⟩
    exact ⟨data', hload.emits, hload.keeps, hload.allocations,
      hholds.update hvars hload.keeps hload.allocations hload.reg_lt hload.value⟩

/-- **One instruction**: there is no code for it and no value, or its code advances the generator.
-/
theorem Ins.visit_cases {i : Ins} (hroom : g.HasRoom 3) (hk : KnowsBelow g n) (hid : i.id = n)
    (huses : i.Uses n) (hholds : g.Holds ρ data) :
    (i.visit g = none ∧ i.selected ρ = none) ∨
      ∃ g', i.visit g = some g' ∧ Advances g g' n ρ data (i.selected ρ) := by
  subst hid
  rcases i with ⟨id, ⟨op, x⟩ | ⟨op, x, y⟩⟩ | ⟨id, var⟩
  · obtain ⟨hnone, hsel⟩ | ⟨g', hsome, hcomputes⟩ | ⟨hsome, hsel⟩ :=
      visitUnary_cases hroom hk.fresh (hk.knows huses) hholds op
    · exact .inl ⟨hnone, congrArg (Option.map _) hsel⟩
    · exact .inr ⟨g', hsome, hcomputes.advances hholds⟩
    · refine .inr ⟨_, hsome, ?_⟩
      rw [Ins.selected, Computation.selected, hsel]
      exact aliased_advances hroom (hk.knows huses) hholds
  · exact .inr ⟨_, rfl, (visitBinary_computes hroom hk.fresh (hk.knows huses.1)
      (hk.knows huses.2) hholds op).advances hholds⟩
  · exact .inr ⟨_, rfl, aliased_advances hroom ((hk var).2 huses) hholds⟩

end Step

/-! ### A list of instructions -/

section Run

variable {g g' g'' : TargetCodeGenerator} {data : Runner.Data} {ρ ρ' : Env} {code : List Ins}
  {n k : ℕ}

/-- Code was appended, whatever it does. -/
def Extends (g g' : TargetCodeGenerator) : Prop :=
  ∃ code, g'.code = g.code ++ code ∧ g.pool.Sub g'.pool

theorem TargetCodeGenerator.Emits.extends {out : Option Runner.Data} (h : g.Emits g' data out) :
    Extends g g' := by
  obtain ⟨code, hcode, hsub, -⟩ := h
  exact ⟨code, hcode, hsub⟩

theorem Extends.trans (h : Extends g g') (h' : Extends g' g'') : Extends g g'' := by
  obtain ⟨code, hcode, hsub⟩ := h
  obtain ⟨code', hcode', hsub'⟩ := h'
  exact ⟨code ++ code', by rw [hcode', hcode, append_assoc], hsub.trans hsub'⟩

theorem TargetCodeGenerator.Emits.trans_none (h : g.Emits g' data none) (h' : Extends g' g'') :
    g.Emits g'' data none := by
  obtain ⟨code, hcode, hsub, hrun⟩ := h
  obtain ⟨code', hcode', hsub'⟩ := h'
  refine ⟨code ++ code', by rw [hcode', hcode, append_assoc], hsub.trans hsub', ?_⟩
  intro pool hpool
  rw [Runner.exec_append, hrun pool (hsub'.trans hpool)]
  rfl

theorem Advances.extends {out : Option Env} (h : Advances g g' n ρ data out) : Extends g g' := by
  rcases out with - | ρ'
  · exact (h.fails rfl).extends
  · obtain ⟨data', hemits, -⟩ := h.holds ρ' rfl
    exact hemits.extends

section

variable (hroom : g.HasRoom (3 * code.length + k)) (hk : KnowsBelow g n) (hcode : Scoped n code)
include hroom hk hcode

/-- **The code of a list does what `run` says.** -/
theorem generate_run (hholds : g.Holds ρ data) (hrun : run ρ code = some ρ') :
    ∃ g', generate g code = some g' ∧ g'.HasRoom k ∧ KnowsBelow g' (n + code.length) ∧
      ∃ data', g.Emits g' data (some data') ∧ g.Keeps data data' ∧
        g.allocations ≤ g'.allocations ∧ g'.Holds ρ' data' := by
  induction code generalizing g n ρ data with
  | nil =>
    obtain rfl := some.inj hrun
    exact ⟨g, rfl, hroom.mono (by simp), hk, data, Emits.of_eq rfl rfl, fun _ _ ↦ rfl, le_refl _,
      hholds⟩
  | cons i code ih =>
    obtain ⟨hid, huses, hcode⟩ := hcode
    rw [length_cons] at hroom ⊢
    rw [run, bind_eq_bind, bind_eq_some_iff] at hrun
    obtain ⟨ρ₁, hsel, hrun⟩ := hrun
    obtain ⟨-, hnone⟩ | ⟨g₁, hvisit, hadv⟩ :=
      Ins.visit_cases (hroom.mono (by omega)) hk hid huses hholds
    · rw [hsel] at hnone
      cases hnone
    · obtain ⟨data₁, hemits, hkeeps, hle, hholds₁⟩ := hadv.holds ρ₁ hsel
      have hroom₁ : g₁.HasRoom (3 * code.length + k) := hadv.room (hroom.mono (by omega))
      obtain ⟨g', hgen, hroom', hk', data', hemits', hkeeps', hle', hholds'⟩ :=
        ih hroom₁ (hadv.knows hk) hcode hholds₁ hrun
      refine ⟨g', by rw [generate, hvisit]; exact hgen, hroom', ?_, data', hemits.trans hemits', ?_,
        le_trans hle hle', hholds'⟩
      · rwa [show n + (code.length + 1) = n + 1 + code.length by omega]
      · intro r hr
        rw [hkeeps' r (lt_of_lt_of_le hr hle), hkeeps r hr]

/-- Whatever the values are, the code of a list is appended and its instructions are known. -/
theorem generate_extends (hin : InRange g) (hgen : generate g code = some g') :
    Extends g g' ∧ g'.HasRoom k ∧ KnowsBelow g' (n + code.length) ∧ InRange g' := by
  induction code generalizing g n with
  | nil =>
    obtain rfl := some.inj hgen
    exact ⟨⟨[], (append_nil _).symm, ConstantPool.Sub.refl _⟩, hroom.mono (by simp), hk, hin⟩
  | cons i code ih =>
    obtain ⟨hid, huses, hcode⟩ := hcode
    rw [length_cons] at hroom ⊢
    obtain ⟨hnone, -⟩ | ⟨g₁, hvisit, hadv⟩ :=
      Ins.visit_cases (hroom.mono (by omega)) hk hid huses hin
    · rw [generate, hnone] at hgen
      cases hgen
    · rw [generate, hvisit] at hgen
      have hroom₁ : g₁.HasRoom (3 * code.length + k) := hadv.room (hroom.mono (by omega))
      obtain ⟨hext, hroom', hk', hin'⟩ := ih hroom₁ (hadv.knows hk) hcode (hadv.inRange hin) hgen
      refine ⟨hadv.extends.trans hext, hroom', ?_, hin'⟩
      rwa [show n + (code.length + 1) = n + 1 + code.length by omega]

/-- **Where `run` has no values the code traps.** -/
theorem generate_fails (hholds : g.Holds ρ data) (hrun : run ρ code = none)
    (hgen : generate g code = some g') : g.Emits g' data none := by
  induction code generalizing g n ρ data with
  | nil => cases hrun
  | cons i code ih =>
    obtain ⟨hid, huses, hcode⟩ := hcode
    rw [length_cons] at hroom
    obtain ⟨hnone, -⟩ | ⟨g₁, hvisit, hadv⟩ :=
      Ins.visit_cases (hroom.mono (by omega)) hk hid huses hholds
    · rw [generate, hnone] at hgen
      cases hgen
    rw [generate, hvisit] at hgen
    have hroom₁ : g₁.HasRoom (3 * code.length + k) := hadv.room (hroom.mono (by omega))
    rcases hsel : i.selected ρ with - | ρ₁
    · exact (hadv.fails hsel).trans_none (generate_extends hroom₁ (hadv.knows hk) hcode
        (hadv.inRange hholds.inRange) hgen).1
    · obtain ⟨data₁, hemits, -, -, hholds₁⟩ := hadv.holds ρ₁ hsel
      rw [run, hsel] at hrun
      exact hemits.trans (ih hroom₁ (hadv.knows hk) hcode hholds₁ hrun hgen)

end

end Run

/-! ### The code of an expression -/

/-- The variables have numbers below `n`. -/
def Expr.Below (n : ℕ) : Expr → Prop
  | number _ | string _ | boolean _ => True
  | var id _ => id < n
  | unary _ e => e.Below n
  | binary _ l r => l.Below n ∧ r.Below n

theorem scoped_append {n : ℕ} {code code' : List Ins} (h : Scoped n code)
    (h' : Scoped (n + code.length) code') : Scoped n (code ++ code') := by
  induction code generalizing n with
  | nil => exact h'
  | cons i code ih =>
    obtain ⟨hid, huses, hcode⟩ := h
    rw [length_cons, show n + (code.length + 1) = n + 1 + code.length by omega] at h'
    exact ⟨hid, huses, ih hcode h'⟩

theorem Ir.Value.Below.mono {n m : ℕ} {x : Value} (h : x.Below n) (hle : n ≤ m) : x.Below m := by
  rcases x with c | ⟨id, type⟩
  · trivial
  · exact lt_of_lt_of_le h hle

theorem Expr.Below.mono {n m : ℕ} {e : Expr} (h : e.Below n) (hle : n ≤ m) : e.Below m := by
  induction e with
  | number | string | boolean => trivial
  | var id _ => exact lt_of_lt_of_le h hle
  | unary _ e ih => exact ih h
  | binary _ l r ihl ihr => exact ⟨ihl h.1, ihr h.2⟩

/-- From one builder to another straight code was appended, and a value is known. -/
structure Appends (b b' : IrBuilder) (code : List Ins) (v : Value) : Prop where
  code_eq : b'.code = b.code ++ code
  next_eq : b'.next = b.next + code.length
  /-- Operands stand before their use. -/
  ordered : Scoped b.next code
  below : v.Below b'.next

/-- What a `create` function returns makes use of known values only. -/
def Ir.Created.Below (n : ℕ) : Created → Prop
  | .value v => v.Below n
  | .instr c => (Ins.compute 0 c).Uses n

section Builder

variable {n : ℕ} {lhs rhs : Value} {c : Created}

theorem unaryOps_below {op : Opcode} (h : unaryOps op rhs = some c) (hrhs : rhs.Below n) :
    c.Below n := by
  unfold unaryOps at h
  split at h
  case h_2 =>
    rcases rhs with (i | b | s) | ⟨id, type⟩
    case const.string =>
      obtain ⟨n, -, rfl⟩ := map_eq_some_iff.1 h
      exact trivial
    all_goals
      obtain rfl := some.inj h
      exact hrhs
  case h_6 => cases h
  all_goals
    obtain rfl := some.inj h
    rcases rhs with (i | b | s) | ⟨id, type⟩ <;> exact hrhs

theorem createNumbers_below {op : NumOp} {fold : Word → Word → Option Word}
    (h : createNumbers op fold lhs rhs = some c) (hlhs : lhs.Below n) (hrhs : rhs.Below n) :
    c.Below n := by
  unfold createNumbers at h
  split at h
  · obtain ⟨m, -, rfl⟩ := map_eq_some_iff.1 h
    exact trivial
  · obtain rfl := some.inj h
    exact ⟨hlhs, hrhs⟩

theorem createTest_below {op : BinaryOp} {test : Bytes → Bytes → Bool} (hlhs : lhs.Below n)
    (hrhs : rhs.Below n) : (createTest op test lhs rhs).Below n := by
  unfold createTest
  split
  · exact trivial
  · exact ⟨hlhs, hrhs⟩

theorem createSAdd_below (hlhs : lhs.Below n) (hrhs : rhs.Below n) :
    (createSAdd lhs rhs).Below n := by
  unfold createSAdd
  split
  · exact trivial
  · split
    · exact hrhs
    · exact ⟨hlhs, hrhs⟩
  · split
    · exact hrhs
    · exact ⟨hlhs, hrhs⟩
  · exact ⟨hlhs, hrhs⟩

theorem createBoolean_below (hlhs : lhs.Below n) (hrhs : rhs.Below n) :
    (createBAnd lhs rhs).Below n ∧ (createBXor lhs rhs).Below n := by
  constructor
  · unfold createBAnd
    split
    · exact trivial
    · exact ⟨hlhs, hrhs⟩
  · unfold createBXor
    split
    · exact trivial
    · exact ⟨hlhs, hrhs⟩

theorem binaryOps_below {op : Opcode} (h : binaryOps op lhs rhs = some c) (hlhs : lhs.Below n)
    (hrhs : rhs.Below n) : c.Below n := by
  have hbool := createBoolean_below hlhs hrhs
  have hadd := createSAdd_below hlhs hrhs
  unfold binaryOps at h
  split at h <;> first
    | exact createNumbers_below h hlhs hrhs
    | cases h <;> first
      | exact hbool.1
      | exact hbool.2
      | exact hadd
      | exact createTest_below hlhs hrhs

variable {b b' b'' : IrBuilder} {v v' : Value} {code code' : List Ins}

theorem Appends.refl (hv : v.Below b.next) : Appends b b [] v :=
  ⟨(append_nil _).symm, rfl, trivial, hv⟩

theorem Appends.trans (h : Appends b b' code v) (h' : Appends b' b'' code' v') :
    Appends b b'' (code ++ code') v' := by
  refine ⟨?_, ?_, scoped_append h.ordered ?_, h'.below⟩
  · rw [h'.code_eq, h.code_eq, append_assoc]
  · rw [h'.next_eq, h.next_eq, length_append, add_assoc]
  · rw [← h.next_eq]
    exact h'.ordered

theorem Appends.next_le (h : Appends b b' code v) : b.next ≤ b'.next := by
  rw [h.next_eq]
  exact Nat.le_add_right _ _

theorem insert_appends (hc : c.Below b.next) :
    ∃ code, Appends b (b.insert c).2 code (b.insert c).1 := by
  rcases c with v | i
  · exact ⟨[], Appends.refl hc⟩
  · refine ⟨[.compute b.next i], rfl, rfl, ⟨rfl, ?_, trivial⟩, Nat.lt_succ_self _⟩
    rcases i with ⟨op, x⟩ | ⟨op, x, y⟩
    · exact hc
    · exact hc

/-- **The code of an expression is straight code.** -/
theorem codegen_appends {e : Expr} (he : e.Below b.next) (h : e.codegen b = some (v, b')) :
    ∃ code, Appends b b' code v := by
  induction e generalizing b b' v with
  | number n | string s | boolean a =>
    cases h
    exact ⟨[], Appends.refl trivial⟩
  | var id type =>
    cases h
    exact ⟨[.load b.next id], rfl, rfl, ⟨rfl, he, trivial⟩, Nat.lt_succ_self _⟩
  | unary op e ih =>
    simp only [Expr.codegen, bind_eq_bind, bind_eq_some_iff] at h
    obtain ⟨⟨rhs, b₁⟩, hrhs, c, hc, hins⟩ := h
    obtain ⟨code, hcode⟩ := ih he hrhs
    obtain ⟨code', hcode'⟩ := insert_appends (unaryOps_below hc hcode.below)
    have hpair : b₁.insert c = (v, b') := some.inj hins
    rw [hpair] at hcode'
    exact ⟨code ++ code', hcode.trans hcode'⟩
  | binary op l r ihl ihr =>
    simp only [Expr.codegen, bind_eq_bind, bind_eq_some_iff] at h
    obtain ⟨⟨lhs, b₁⟩, hlhs, ⟨rhs, b₂⟩, hrhs, c, hc, hins⟩ := h
    obtain ⟨code, hcode⟩ := ihl he.1 hlhs
    obtain ⟨code', hcode'⟩ := ihr (he.2.mono hcode.next_le) hrhs
    obtain ⟨code'', hcode''⟩ := insert_appends
      (binaryOps_below hc (hcode.below.mono hcode'.next_le) hcode'.below)
    have hpair : b₂.insert c = (v, b') := some.inj hins
    rw [hpair] at hcode''
    exact ⟨_, (hcode.trans hcode').trans hcode''⟩

end Builder

end Xzero.Flow
