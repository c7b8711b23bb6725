import Xzero.Flow.Compile

/-!
# What a compiled expression evaluates to

`Expr.Yields` is the whole way: the expression's code is built and generated, its value is brought
into a register, and the machine runs all this. `Expr.exec` says directly what comes of it, along
the expression; **the two agree** (`Expr.yields_iff`), so that what remains to be said about
expressions is about `exec`.
-/

namespace Xzero.Flow

open Ir List Option TargetCodeGenerator Vm

/-- An inserted instruction, or none, and its effect on the values. -/
def Ir.Created.exec (n : ℕ) (ρ : Env) : Created → Option (Value × ℕ × Env)
  | .value v => some (v, n, ρ)
  | .instr c => (c.selected ρ).map fun d ↦ (.instr n c.type, n + 1, Function.update ρ n d)

namespace Expr

/-- The value of an expression whose code has numbers from `n` on, the next number, and the values
after its code was run. -/
def exec (n : ℕ) (ρ : Env) : Expr → Option (Value × ℕ × Env)
  | number a => some (.const (.int a), n, ρ)
  | string s => some (.const (.string s), n, ρ)
  | boolean a => some (.const (.boolean a), n, ρ)
  | var id type => some (.instr n type, n + 1, Function.update ρ n (ρ id))
  | unary op e => e.exec n ρ >>= fun r ↦ unaryOps op r.1 >>= fun c ↦ c.exec r.2.1 r.2.2
  | binary op l r => l.exec n ρ >>= fun p ↦ r.exec p.2.1 p.2.2 >>= fun q ↦
    binaryOps op p.1 q.1 >>= fun c ↦ c.exec q.2.1 q.2.2

/-- The expression, compiled with the generator `g` and run in the state `data`, leaves `v` in its
register. -/
def Yields (n : ℕ) (g : TargetCodeGenerator) (data : Runner.Data) (e : Expr) (v : Datum) : Prop :=
  ∃ x b g' data', e.codegen ⟨n, []⟩ = some (x, b) ∧ generate g b.code = some g' ∧
    g.Emits (g'.getRegister x).2 data (some data') ∧ data' (g'.getRegister x).1 = v

/-- The generator has room for the code of the expression. -/
def Room (n : ℕ) (g : TargetCodeGenerator) (e : Expr) : Prop :=
  ∀ x b, e.codegen ⟨n, []⟩ = some (x, b) → g.HasRoom (3 * b.code.length + 1)

/-- Compiled and run where the values of the variables are `ρ`, the expression is `v`. -/
def Evaluates (e : Expr) (ρ : Env) (v : Datum) : Prop :=
  ∀ ⦃n : ℕ⦄ ⦃g : TargetCodeGenerator⦄ ⦃data : Runner.Data⦄, e.Below n → KnowsBelow g n →
    g.Holds ρ data → e.Room n g → e.Yields n g data v

end Expr

/-! ### Code and its run -/

theorem run_append (ρ : Env) (code code' : List Ins) :
    run ρ (code ++ code') = run ρ code >>= fun ρ' ↦ run ρ' code' := by
  induction code generalizing ρ with
  | nil => rfl
  | cons i code ih =>
    rw [cons_append, run, run]
    rcases i.selected ρ with - | ρ₁
    · rfl
    · exact ih ρ₁

def Expr.size : Expr → ℕ
  | number _ | string _ | boolean _ | var _ _ => 1
  | unary _ e => e.size + 1
  | binary _ l r => l.size + r.size + 1

/-- What is inserted behind the code of `b`, if there is something to insert, is at most `k`
instructions, which do what `f` does. -/
def Compiles (k : ℕ) (b : IrBuilder) (f : Env → Option (Value × ℕ × Env)) :
    Option (Value × IrBuilder) → Prop
  | none => ∀ ρ, f ρ = none
  | some (v, b') => ∃ code, b'.code = b.code ++ code ∧ code.length ≤ k ∧
    ∀ ρ, f ρ = (run ρ code).map fun ρ' ↦ (v, b'.next, ρ')

theorem Compiles.bind {k m : ℕ} {b : IrBuilder} {f : Env → Option (Value × ℕ × Env)}
    {r : Option (Value × IrBuilder)} {f' : Value × ℕ × Env → Option (Value × ℕ × Env)}
    {r' : Value × IrBuilder → Option (Value × IrBuilder)} (h : Compiles k b f r)
    (h' : ∀ v b', Compiles m b' (fun ρ ↦ f' (v, b'.next, ρ)) (r' (v, b'))) :
    Compiles (k + m) b (fun ρ ↦ f ρ >>= f') (r >>= r') := by
  rcases r with - | ⟨v, b₁⟩
  · exact fun ρ ↦ congrArg (· >>= f') (h ρ)
  obtain ⟨code, hcode, hle, hf⟩ := h
  have h' := h' v b₁
  show Compiles (k + m) b _ (r' (v, b₁))
  generalize r' (v, b₁) = r₁ at h' ⊢
  rcases r₁ with - | ⟨v', b'⟩
  · intro ρ
    dsimp only
    rw [hf]
    rcases run ρ code with - | ρ₁
    · rfl
    · exact h' ρ₁
  · obtain ⟨code', hcode', hle', hf'⟩ := h'
    refine ⟨code ++ code', by rw [hcode', hcode, append_assoc], ?_, fun ρ ↦ ?_⟩
    · rw [length_append]
      exact add_le_add hle hle'
    · dsimp only
      rw [hf, run_append]
      rcases run ρ code with - | ρ₁
      · rfl
      · exact hf' ρ₁

section

variable {b b' : IrBuilder} {v : Value} {e : Expr}

theorem compiles_insert (b : IrBuilder) (c : Option Created) :
    Compiles 1 b (fun ρ ↦ c >>= fun c ↦ c.exec b.next ρ) (c >>= fun c ↦ some (b.insert c)) := by
  rcases c with - | v | i
  · exact fun _ ↦ rfl
  · exact ⟨[], (append_nil _).symm, Nat.zero_le 1, fun _ ↦ rfl⟩
  · refine ⟨[.compute b.next i], rfl, le_refl 1, fun ρ ↦ ?_⟩
    show Created.exec _ ρ (.instr i) = _
    rw [Created.exec, run, Ins.selected]
    rcases i.selected ρ with - | d <;> rfl

theorem compiles_codegen (e : Expr) (b : IrBuilder) :
    Compiles e.size b (e.exec b.next) (e.codegen b) := by
  induction e generalizing b with
  | number n | string s | boolean a =>
    exact ⟨[], (append_nil _).symm, Nat.zero_le _, fun _ ↦ rfl⟩
  | var id type => exact ⟨[.load b.next id], rfl, le_refl 1, fun _ ↦ rfl⟩
  | unary op e ih => exact (ih b).bind fun rhs b₁ ↦ compiles_insert b₁ _
  | binary op l r ihl ihr =>
    refine (ihl b).bind (m := r.size + 1) fun lhs b₁ ↦ ?_
    dsimp only
    exact (ihr b₁).bind fun rhs b₂ ↦ compiles_insert b₂ _

theorem exec_eq_run (h : e.codegen b = some (v, b')) :
    ∃ code, b'.code = b.code ++ code ∧ code.length ≤ e.size ∧
      ∀ ρ, e.exec b.next ρ = (run ρ code).map fun ρ' ↦ (v, b'.next, ρ') := by
  have hcompiles := compiles_codegen e b
  rwa [h] at hcompiles

variable {n : ℕ} {g : TargetCodeGenerator} {data : Runner.Data} {ρ : Env} {d : Datum}

/-- **What the machine computes for a compiled expression is what `exec` says.** -/
theorem Expr.yields_iff (he : e.Below n) (hk : KnowsBelow g n) (hholds : g.Holds ρ data)
    (hroom : e.Room n g) : e.Yields n g data d ↔
      ∃ x n' ρ', e.exec n ρ = some (x, n', ρ') ∧ x.loaded ρ' = d := by
  rcases hgen : e.codegen ⟨n, []⟩ with - | ⟨x, b⟩
  · have hcompiles := compiles_codegen e ⟨n, []⟩
    rw [hgen] at hcompiles
    refine iff_of_false ?_ ?_
    · rintro ⟨x, b, -, -, h, -⟩
      cases hgen.symm.trans h
    · rintro ⟨x, n', ρ', h, -⟩
      cases (hcompiles ρ).symm.trans h
  obtain ⟨code, happ⟩ := codegen_appends he hgen
  obtain ⟨code', hcode', -, hexec⟩ := exec_eq_run hgen
  obtain rfl : b.code = code := happ.code_eq
  obtain rfl : b.code = code' := hcode'
  have hroom := hroom x b hgen
  have hbelow : x.Below (n + b.code.length) := happ.next_eq ▸ happ.below
  constructor
  · rintro ⟨x', b', g', data', hgen', hg', hemits, hval⟩
    cases hgen.symm.trans hgen'
    rcases hrun : run ρ b.code with - | ρ'
    · -- The code traps, so that it has no outcome.
      obtain ⟨-, hroom', hk', hin'⟩ := generate_extends hroom hk happ.ordered hholds.inRange hg'
      obtain ⟨_, hload⟩ := exists_loads hroom' (hk'.knows hbelow) hin'
      have hfails := (generate_fails hroom hk happ.ordered hholds hrun hg').trans_none
        hload.emits.extends
      cases hfails.unique hemits
    · obtain ⟨g'', hg'', hroom', hk', data₁, hemits₁, -, -, hholds'⟩ :=
        generate_run hroom hk happ.ordered hholds hrun
      obtain rfl := some.inj (hg'.symm.trans hg'')
      obtain ⟨data₂, hload⟩ := exists_loads hroom' (hk'.knows hbelow) hholds'
      obtain rfl := some.inj ((hemits₁.trans hload.emits).unique hemits)
      refine ⟨x, b.next, ρ', ?_, by rw [← hval, hload.value]⟩
      exact (hexec ρ).trans (congrArg _ hrun)
  · rintro ⟨x', n', ρ', hx', rfl⟩
    obtain ⟨ρ'', hrun, heq⟩ := map_eq_some_iff.1 ((hexec ρ).symm.trans hx')
    cases heq
    obtain ⟨g', hg', hroom', hk', data₁, hemits₁, -, -, hholds'⟩ :=
      generate_run hroom hk happ.ordered hholds hrun
    obtain ⟨data₂, hload⟩ := exists_loads hroom' (hk'.knows hbelow) hholds'
    exact ⟨x, b, g', data₂, hgen, hg', hemits₁.trans hload.emits, hload.value⟩

/-- The result of `exec`, in a register. -/
def Expr.Outcome (n : ℕ) (ρ : Env) (e : Expr) (d : Datum) : Prop :=
  ∃ x n' ρ', e.exec n ρ = some (x, n', ρ') ∧ x.loaded ρ' = d

theorem Expr.evaluates_of_outcome (h : ∀ n, e.Below n → e.Outcome n ρ d) : e.Evaluates ρ d :=
  fun n _ _ he hk hholds hroom ↦ (yields_iff he hk hholds hroom).2 (h n he)

/-! ### Room -/

theorem Expr.room_of_size {k : ℕ} (hroom : g.HasRoom k) (hsize : 3 * e.size + 1 ≤ k) :
    e.Room n g := by
  intro v b hgen
  obtain ⟨code, hcode, hle, -⟩ := exec_eq_run hgen
  obtain rfl : b.code = code := hcode
  exact hroom.mono (by omega)

theorem exists_generator_two (i n : ℕ) (a d : Datum) :
    ∃ (g : TargetCodeGenerator) (data : Runner.Data), KnowsBelow g n ∧
      g.Holds (fun k ↦ if k = i then a else d) data ∧ g.HasRoom 100 := by
  let vars : ℕ → Option ℕ := fun k ↦ if k < n then some (if k = i then 1 else 2) else none
  refine ⟨⟨[], vars, 3, ⟨[], []⟩⟩, fun r ↦ if r = 1 then a else d, fun k ↦ ?_, fun k r hr ↦ ?_, ?_⟩
  · by_cases hk : k < n
    · exact iff_of_true ⟨_, if_pos hk⟩ hk
    · exact iff_of_false (fun ⟨r, hr⟩ ↦ nomatch (if_neg hk).symm.trans hr) hk
  · by_cases hk : k < n
    · obtain rfl := some.inj ((if_pos hk).symm.trans hr)
      by_cases hi : k = i
      · simp [hi]
      · simp [hi]
    · exact nomatch (if_neg hk).symm.trans hr
  · refine ⟨?_, ?_, ?_⟩
    · show 3 + 100 ≤ 2 ^ 15
      decide
    · show 0 + 100 ≤ 2 ^ 16
      decide
    · show 0 + 100 ≤ 2 ^ 16
      decide

/-- Where the variables hold two values, a small expression evaluates to its outcome only. -/
theorem Expr.outcome_of_evaluates {i : ℕ} {x y : Datum} (hsize : e.size ≤ 30)
    (he : e.Below n) (h : e.Evaluates (fun k ↦ if k = i then x else y) d) :
    e.Outcome n (fun k ↦ if k = i then x else y) d := by
  obtain ⟨g, data, hk, hholds, hroom⟩ := exists_generator_two i n x y
  have hroom' : e.Room n g := room_of_size hroom (by omega)
  exact (yields_iff he hk hholds hroom').1 (h he hk hholds hroom')

end

end Xzero.Flow
