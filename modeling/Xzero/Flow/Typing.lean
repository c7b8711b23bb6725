import Xzero.Flow.Shape

/-!
# Types of expressions

The parser takes an operator's opcode from the types of the operands. **An expression built in this
way evaluates to a value of its type** (`Expr.fits_of_exec`), for numbers and strings; a boolean can
become a number when it is folded.
-/

namespace Xzero.Flow

open Vm Ir Util Option Computation OpSig Created UnaryOp

/-- The nodes are the parser's, and the variables hold values of their types. -/
def Expr.Typed (ρ : Env) : Expr → Prop
  | number _ | string _ | boolean _ => True
  | var id type => HasType type (ρ id)
  | unary op e => op ≠ .exit ∧ (∃ token, makeCast token e.type = op) ∧ e.Typed ρ
  | binary op l r =>
    op ≠ .exit ∧ (∃ token, makeOperator token l.type r.type = op) ∧ l.Typed ρ ∧ r.Typed ρ

def Shape.Fits (s : Shape) : FlowType → Prop
  | .number => s.type = .number ∧ ∃ w, s.datum = .word w
  | .string => s.type = .string ∧ ∃ t, s.datum = .string t
  | .boolean => s.type = .boolean ∨ s.type = .number
  | _ => True

variable {e : Expr} {n : ℕ} {ρ : Env}

theorem Expr.Typed.congr {σ : Env} (he : e.Below n)
    (h : ∀ i < n, σ i = ρ i) (ht : e.Typed ρ) : e.Typed σ := by
  induction e with
  | number | string | boolean => trivial
  | var id type =>
    show HasType type (σ id)
    rw [h id he]
    exact ht
  | unary op e ih => exact ⟨ht.1, ht.2.1, ih he ht.2.2⟩
  | binary op l r ihl ihr => exact ⟨ht.1, ht.2.1, ihl he.1 ht.2.2.1, ihr he.2 ht.2.2.2⟩

/-! ### One operator -/

section

variable {ρ : Env} {v w : Value} {c : Created} {s : Shape} {op : Opcode} {t t' : FlowType}
  {token : FlowToken}

theorem loaded_of_fits_string (h : (v.shape ρ).Fits .string) :
    v.type = .string ∧ ∃ b, v.loaded ρ = .string b := by
  obtain ⟨htype, b, hb⟩ := h
  rcases v with (a | a | a) | ⟨id, type⟩
  · cases htype
  · cases htype
  · exact ⟨rfl, a, rfl⟩
  · exact ⟨htype, b, hb⟩

theorem loaded_of_fits_number (h : (v.shape ρ).Fits .number) :
    v.type = .number ∧ ∃ a, v.loaded ρ = .word a := by
  obtain ⟨htype, b, hb⟩ := h
  rcases v with (a | a | a) | ⟨id, type⟩
  · exact ⟨rfl, _, rfl⟩
  · cases htype
  · cases htype
  · exact ⟨htype, b, hb⟩

theorem toStr_fits (hv : (v.shape ρ).Fits .boolean ∨ (v.shape ρ).Fits .number)
    (h : (instr (.unary .toStr v)).shape ρ = some s) : s.Fits .string := by
  obtain ⟨d, hd, rfl⟩ := map_eq_some_iff.1 h
  refine ⟨rfl, ?_⟩
  have htype : v.type = .boolean ∨ v.type = .number := by
    rw [← type_shape v]
    exact hv.elim id fun h ↦ Or.inr h.1
  change selected ρ v .toStr = some d at hd
  rcases htype with htype | htype <;> rw [UnaryOp.selected, htype] at hd
  · cases hd
  · obtain ⟨a, -, rfl⟩ := map_eq_some_iff.1 hd
    exact ⟨_, rfl⟩

theorem createI2S_fits (hv : (v.shape ρ).Fits .boolean ∨ (v.shape ρ).Fits .number)
    (h : (createI2S v).shape ρ = some s) : s.Fits .string := by
  rcases v with (a | a | a) | ⟨id, type⟩
  · cases h
    exact ⟨rfl, _, rfl⟩
  all_goals exact toStr_fits hv h

theorem createS2I_fits (hv : (v.shape ρ).Fits .string) (hc : createS2I v = some c)
    (h : c.shape ρ = some s) : s.Fits .number := by
  obtain ⟨htype, b, hb⟩ := loaded_of_fits_string hv
  have hinstr : (instr (.unary .toNumber v)).shape ρ = some s → s.Fits .number := by
    intro h
    obtain ⟨d, hd, rfl⟩ := map_eq_some_iff.1 h
    refine ⟨rfl, ?_⟩
    change selected ρ v .toNumber = some d at hd
    rw [UnaryOp.selected, htype, hb] at hd
    cases hd
    exact ⟨_, rfl⟩
  rcases v with (a | a | a) | ⟨id, type⟩
  · cases hc
    exact hinstr h
  · cases hc
    exact hinstr h
  · obtain ⟨n, -, rfl⟩ := map_eq_some_iff.1 hc
    cases h
    exact ⟨rfl, _, rfl⟩
  · cases hc
    exact hinstr h

theorem negation_fits (hop : op = .nneg ∨ op = .nnot ∨ op = .bnot) (hc : unaryOps op v = some c)
    (h : c.shape ρ = some s) : s.Fits (resultType op) := by
  have hword : ∀ (f : Word → Word), (((v.loaded ρ).toNumber.map fun w ↦ Datum.word (f w)).map
      (Shape.computed .number)) = some s → s.Fits .number := by
    intro f h
    obtain ⟨d, hd, rfl⟩ := map_eq_some_iff.1 h
    obtain ⟨a, -, rfl⟩ := map_eq_some_iff.1 hd
    exact ⟨rfl, _, rfl⟩
  have htest : (instr (.unary .bnot v)).shape ρ = some s → s.Fits .boolean := by
    intro h
    obtain ⟨d, -, rfl⟩ := map_eq_some_iff.1 h
    exact Or.inl rfl
  rcases hop with rfl | rfl | rfl
  · cases hc
    rcases v with (a | a | a) | ⟨id, type⟩
    · cases h
      exact ⟨rfl, _, rfl⟩
    all_goals exact hword (- ·) h
  · cases hc
    rcases v with (a | a | a) | ⟨id, type⟩
    · cases h
      exact ⟨rfl, _, rfl⟩
    all_goals exact hword (~~~ ·) h
  · cases hc
    rcases v with (a | a | a) | ⟨id, type⟩
    · exact htest h
    · cases h
      exact Or.inl rfl
    all_goals exact htest h

theorem unaryOps_fits (hop : makeCast token t = op) (hv : (v.shape ρ).Fits t)
    (hc : unaryOps op v = some c) (h : c.shape ρ = some s) : s.Fits (resultType op) := by
  have hneg := fun hop ↦ negation_fits hop hc h
  unfold unaryOps at hc
  split at hc
  · cases hc
    refine createI2S_fits ?_ h
    cases token <;> cases t <;> first | exact .inl hv | exact .inr hv | cases hop
  · refine createS2I_fits ?_ hc h
    cases token <;> cases t <;> first | exact hv | cases hop
  · exact hneg (.inl rfl)
  · exact hneg (.inr (.inl rfl))
  · exact hneg (.inr (.inr rfl))
  · cases hc

variable {nop : NumOp}

theorem word_of_selected {d : Datum} (hv : (v.shape ρ).Fits .number)
    (hw : (w.shape ρ).Fits .number) (h : (BinaryOp.num nop).selected ρ v w = some d) :
    ∃ a, d = .word a := by
  obtain ⟨-, a, ha⟩ := loaded_of_fits_number hv
  obtain ⟨-, b, hb⟩ := loaded_of_fits_number hw
  have hmap : ∀ {r : Option Word}, r.map Datum.word = some d → ∃ a, d = .word a := by
    intro r h
    obtain ⟨c, -, rfl⟩ := map_eq_some_iff.1 h
    exact ⟨c, rfl⟩
  have hvm : (BinaryOp.num nop).vm (v.loaded ρ) (w.loaded ρ) = some d → ∃ a, d = .word a := by
    rw [ha, hb, vm_num]
    exact hmap
  have hleft : ∀ i, nop.withImmediate (v.loaded ρ) i = some d → ∃ a, d = .word a := by
    rw [ha]
    exact fun i h ↦ hmap h
  have hright : ∀ i, nop.withImmediate (w.loaded ρ) i = some d → ∃ a, d = .word a := by
    rw [hb]
    exact fun i h ↦ hmap h
  have hassoc : nop.ofBinaryAssoc ρ v w = some d → ∃ a, d = .word a := by
    unfold NumOp.ofBinaryAssoc
    split
    · exact hleft _
    · exact hright _
    · exact hvm
  have hbinary : nop.ofBinary ρ v w = some d → ∃ a, d = .word a := by
    unfold NumOp.ofBinary
    split
    · exact hleft _
    · exact hvm
  cases nop <;> first | exact hassoc h | exact hbinary h

variable {fold : Word → Word → Option Word}

theorem createNumbers_fits (hv : (v.shape ρ).Fits .number) (hw : (w.shape ρ).Fits .number)
    (hc : createNumbers nop fold v w = some c) (h : c.shape ρ = some s) :
    (∃ n, s = .const (.int n)) ∨ ∃ n, s = .computed (binary (.num nop) v w).type (.word n) := by
  unfold createNumbers at hc
  split at hc
  · obtain ⟨n, -, rfl⟩ := map_eq_some_iff.1 hc
    cases h
    exact Or.inl ⟨n, rfl⟩
  · cases hc
    obtain ⟨d, hd, rfl⟩ := map_eq_some_iff.1 h
    obtain ⟨n, rfl⟩ := word_of_selected hv hw hd
    exact Or.inr ⟨n, rfl⟩

theorem createSAdd_fits (hv : (v.shape ρ).Fits .string) (hw : (w.shape ρ).Fits .string)
    (h : (createSAdd v w).shape ρ = some s) : s.Fits .string := by
  obtain ⟨-, a, ha⟩ := loaded_of_fits_string hv
  obtain ⟨-, b, hb⟩ := loaded_of_fits_string hw
  have hinstr : (instr (.binary .sadd v w)).shape ρ = some s → s.Fits .string := by
    intro h
    obtain ⟨d, hd, rfl⟩ := map_eq_some_iff.1 h
    change BinaryOp.sadd.vm (v.loaded ρ) (w.loaded ρ) = some d at hd
    rw [ha, hb, vm_sadd] at hd
    cases hd
    exact ⟨rfl, _, rfl⟩
  unfold createSAdd at h
  split at h
  · cases h
    exact ⟨rfl, _, rfl⟩
  · split at h
    · cases h
      exact hw
    · exact hinstr h
  · split at h
    · cases h
      exact ⟨rfl, _, rfl⟩
    · exact hinstr h
  · exact hinstr h

theorem instr_boolean {i : Computation} (hi : i.type = .boolean)
    (h : (instr i).shape ρ = some s) : s.Fits .boolean := by
  obtain ⟨d, -, rfl⟩ := map_eq_some_iff.1 h
  exact Or.inl hi

theorem createNumbers_boolean (hi : (binary (.num nop) v w).type = .boolean)
    (hc : createNumbers nop fold v w = some c) (h : c.shape ρ = some s) : s.Fits .boolean := by
  unfold createNumbers at hc
  split at hc
  · obtain ⟨n, -, rfl⟩ := map_eq_some_iff.1 hc
    cases h
    exact .inr rfl
  · cases hc
    exact instr_boolean hi h

theorem createTest_boolean {bop : BinaryOp} {test : Bytes → Bytes → Bool}
    (hi : (binary bop v w).type = .boolean)
    (h : (createTest bop test v w).shape ρ = some s) : s.Fits .boolean := by
  unfold createTest at h
  split at h
  · cases h
    exact .inr rfl
  · exact instr_boolean hi h

theorem createLogic_boolean (hc : some (createBAnd v w) = some c ∨ some (createBXor v w) = some c)
    (h : c.shape ρ = some s) : s.Fits .boolean := by
  rcases hc with hc | hc
  · cases hc
    unfold createBAnd at h
    split at h
    · cases h
      exact Or.inl rfl
    · exact instr_boolean rfl h
  · cases hc
    unfold createBXor at h
    split at h
    · cases h
      exact Or.inl rfl
    · exact instr_boolean rfl h

theorem of_eq (t t' : FlowType) : (of t t' = .numNum → t = .number ∧ t' = .number) ∧
    (of t t' = .stringString → t = .string ∧ t' = .string) := by
  unfold of
  split <;> simp

/-- The operators with a number as their result have numbers as operands, the one with a string has
strings. -/
theorem operands_of_resultType (hop : makeOperator token t t' = op) :
    (resultType op = .number → t = .number ∧ t' = .number) ∧
      (resultType op = .string → op = .sadd ∧ t = .string ∧ t' = .string) := by
  obtain ⟨hof, hof'⟩ := of_eq t t'
  subst hop
  change (resultType ((of t t').operator token) = .number → _) ∧
    (resultType ((of t t').operator token) = .string → (of t t').operator token = .sadd ∧ _)
  rcases hsig : of t t'
  · constructor <;> intro h <;> cases token <;> cases h
  · refine ⟨fun _ ↦ hof hsig, fun h ↦ ?_⟩
    cases token <;> cases h
  · constructor
    · intro h
      cases token <;> cases h
    · intro h
      refine ⟨?_, hof' hsig⟩
      cases token <;> first | rfl | cases h
  · exact ⟨fun h ↦ (nomatch h), fun h ↦ (nomatch h)⟩

theorem binaryOps_fits (hop : makeOperator token t t' = op) (hv : (v.shape ρ).Fits t)
    (hw : (w.shape ρ).Fits t') (hc : binaryOps op v w = some c) (h : c.shape ρ = some s) :
    s.Fits (resultType op) := by
  obtain ⟨hnumber, hstring⟩ := operands_of_resultType hop
  have hnum : ∀ {nop : NumOp} {fold}, resultType op = .number →
      createNumbers nop fold v w = some c →
      (binary (.num nop) v w).type = .number → s.Fits .number := by
    intro nop fold hres hc htype
    obtain ⟨rfl, rfl⟩ := hnumber hres
    obtain ⟨n, rfl⟩ | ⟨n, rfl⟩ := createNumbers_fits hv hw hc h
    · exact ⟨rfl, n, rfl⟩
    · exact ⟨htype, n, rfl⟩
  have hadd : resultType op = .string → some (createSAdd v w) = some c → s.Fits .string := by
    intro hres hc
    cases hc
    obtain ⟨-, rfl, rfl⟩ := hstring hres
    exact createSAdd_fits hv hw h
  have htest : ∀ {bop : BinaryOp} {test}, (binary bop v w).type = .boolean →
      some (createTest bop test v w) = some c → s.Fits .boolean := by
    intro bop test hi hc
    cases hc
    exact createTest_boolean hi h
  cases op <;> first
    | exact hnum rfl hc rfl
    | exact createNumbers_boolean rfl hc h
    | exact hadd rfl hc
    | exact createLogic_boolean (.inl hc) h
    | exact createLogic_boolean (.inr hc) h
    | exact htest rfl hc
    | cases hc

end

/-! ### Expressions -/

/-- **An expression evaluates to a value of its type.** -/
theorem Expr.fits_of_exec {r : Value × ℕ × Env} (he : e.Below n)
    (ht : e.Typed ρ) (h : e.exec n ρ = some r) : (shapeOf r).Fits e.type := by
  induction e generalizing n ρ r with
  | number a =>
    cases h
    exact ⟨rfl, a, rfl⟩
  | string s =>
    cases h
    exact ⟨rfl, s, rfl⟩
  | boolean a =>
    cases h
    exact .inl rfl
  | var id type =>
    cases h
    show (Shape.computed type (Function.update ρ n (ρ id) n)).Fits type
    rw [Function.update_self]
    change HasType type (ρ id) at ht
    cases type with
    | number => exact ⟨rfl, hasType_number ht⟩
    | string => exact ⟨rfl, (hasType_string_iff _).1 ht⟩
    | boolean => exact .inl rfl
    | _ => trivial
  | unary op e ih =>
    simp only [exec, bind_eq_bind, bind_eq_some_iff] at h
    obtain ⟨p, hp, c, hc, h⟩ := h
    obtain ⟨-, ⟨token, htoken⟩, ht⟩ := ht
    have hs : c.shape p.2.2 = some (shapeOf r) := by rw [← shape_exec, h]; rfl
    exact unaryOps_fits htoken (ih he ht hp) hc hs
  | binary op l r' ihl ihr =>
    simp only [exec, bind_eq_bind, bind_eq_some_iff] at h
    obtain ⟨p, hp, q, hq, c, hc, h⟩ := h
    obtain ⟨-, ⟨token, htoken⟩, hl, hr⟩ := ht
    have hreach := exec_reaches he.1 hp
    have hr := hr.congr he.2 hreach.keeps
    have hreach' := exec_reaches (he.2.mono hreach.le) hq
    have hleft : (p.1.shape q.2.2).Fits l.type := by
      rw [shape_congr hreach.below hreach'.keeps]
      exact ihl he.1 hl hp
    have hs : c.shape q.2.2 = some (shapeOf r) := by rw [← shape_exec, h]; rfl
    exact binaryOps_fits htoken hleft (ihr (he.2.mono hreach.le) hr hq) hc hs

/-- **What an expression stands for has its type.** -/
theorem Expr.fits_of_denote {s : Shape} (ht : e.Typed ρ)
    (h : e.denote ρ = some s) : s.Fits e.type := by
  obtain ⟨r, hr, rfl⟩ := map_eq_some_iff.1 h
  exact fits_of_exec (below_iff.2 (Nat.le_refl _)) ht hr

end Xzero.Flow
