import Xzero.Flow.Ir.Handler
import Xzero.Library.Simulation

/-!
# Execution of handlers

A handler goes through the code of its blocks. What an instruction does, and how conditions come
out, is left to an interpretation (`Interp`); `machine` is the way through the graph. A statement
about all interpretations is one about the sequence of instructions.

`Meaning.interp` is the interpretation with values: an instruction has a value that later
instructions refer to, and what can be observed are the calls of native functions and handlers, with
their arguments. The results of calls are given by an oracle, from all the calls so far.
-/

namespace Xzero.Flow.Ir

open Function List Option

/-- What instructions do to a state, what is observed of them, and how conditions come out. -/
structure Interp (S E R : Type) where
  /-- An instruction that is no terminator. -/
  perform : Instr → S → Except R (List E × S)
  /-- The outcome of a condition, from the operands that are not blocks. -/
  decide : Kind → List Operand → S → List E × ℕ × S
  /-- The result of a handler that returns. -/
  ret : List Operand → S → R
  /-- The result where control goes to no block of the handler. -/
  lost : R

/-- Where a terminator goes to: `0` is false, or the else block; other numbers are true, or the
cases. -/
def Instr.successor (i : Instr) (n : ℕ) : Option Operand :=
  match i.kind with
  | .br => i.operands[0]?
  | .condBr => if n = 0 then i.operands[2]? else i.operands[1]?
  | .matchOn _ => if n = 0 then i.operands[1]? else i.operands[2 * n + 1]?
  | _ => none

theorem Instr.mem_of_successor {i : Instr} {n : ℕ} {o : Operand} (h : i.successor n = some o) :
    o ∈ i.operands := by
  unfold Instr.successor at h
  split at h
  · exact mem_of_getElem? h
  · split at h <;> exact mem_of_getElem? h
  · split at h <;> exact mem_of_getElem? h
  · cases h

def Instr.condition (i : Instr) : List Operand := i.operands.filter fun o ↦ o.toBlock.isNone

namespace Handler

variable {S E R : Type}

def jump (h : Handler) (I : Interp S E R) (es : List E) (s : S) :
    Option Operand → Except R (List E × (List Instr × S))
  | some (.block b) => if b ∈ h.blocks then .ok (es, (h.code b, s)) else .error I.lost
  | _ => .error I.lost

def step (h : Handler) (I : Interp S E R) : List Instr × S → Except R (List E × (List Instr × S))
  | ([], _) => .error I.lost
  | (i :: rest, s) =>
    match i.kind with
    | .ret => .error (I.ret i.operands s)
    | .br => h.jump I [] s (i.successor 0)
    | .condBr | .matchOn _ =>
      let r := I.decide i.kind i.condition s
      h.jump I r.1 r.2.2 (i.successor r.2.1)
    | _ => (I.perform i s).map fun r ↦ (r.1, (rest, r.2))

def machine (h : Handler) (I : Interp S E R) : Machine (List Instr × S) E R := ⟨h.step I⟩

def start (h : Handler) (s : S) : List Instr × S := ((h.entry.map h.code).getD [], s)

end Handler

/-! ### Values -/

/-- What values are and what is computed with them. -/
structure Meaning (D : Type) where
  value : Operand → D
  /-- The result of an instruction that has one; it may fail. -/
  compute : Kind → List D → Option D
  /-- A variable after an element was stored. -/
  write : D → D → D → D
  truth : D → Bool
  /-- The case that matches, from the value and the labels; `0` is none. -/
  select : MatchClass → List D → ℕ
  /-- Constant booleans are what they are. -/
  truth_boolean : ∀ b, truth (value (.const (.boolean b))) = b

/-- A call, with its arguments. -/
structure Call (D : Type) where
  /-- The function or handler that is called. -/
  callee : Option Operand
  args : List D

/-- The values of the instructions, and the calls so far. -/
structure Frame (D : Type) where
  /-- The value of each instruction, or of the variable it stands for. -/
  env : ℕ → D
  calls : List (Call D)

/-- How a handler ends. -/
inductive Result (D : Type)
  /-- It returns the values of the operands of `RetInstr`. -/
  | returned (values : List D)
  /-- A handler that was called has handled the request. -/
  | handled (call : Call D)
  | failed
  /-- Control goes to no block of the handler. -/
  | lost

def Frame.define {D : Type} (s : Frame D) (i : Instr) :
    Option D → Except (Result D) (List (Call D) × Frame D)
  | some d => .ok ([], { s with env := update s.env i.id d })
  | none => .error .failed

namespace Meaning

variable {D : Type} (M : Meaning D) (oracle : List (Call D) → D)

def eval (env : ℕ → D) : Operand → D
  | .instr id => env id
  | o => M.value o

def perform (i : Instr) (s : Frame D) : Except (Result D) (List (Call D) × Frame D) :=
  match i.kind with
  | .nop => .ok ([], s)
  | .store => match i.operands with
    | [.instr v, index, e] =>
      let d := M.write (s.env v) (M.eval s.env index) (M.eval s.env e)
      .ok ([], { s with env := update s.env v d })
    | _ => .error .failed
  | .load => s.define i (i.operands.map (M.eval s.env)).head?
  | .call =>
    let call : Call D := ⟨i.operands.head?, i.operands.tail.map (M.eval s.env)⟩
    let calls := s.calls ++ [call]
    .ok ([call], ⟨update s.env i.id (oracle calls), calls⟩)
  | .handlerCall =>
    let call : Call D := ⟨i.operands.head?, i.operands.tail.map (M.eval s.env)⟩
    let calls := s.calls ++ [call]
    if M.truth (oracle calls) then .error (.handled call) else .ok ([call], ⟨s.env, calls⟩)
  | kind => s.define i (M.compute kind (i.operands.map (M.eval s.env)))

def outcome (kind : Kind) (values : List D) : ℕ :=
  match kind with
  | .matchOn op => M.select op values
  | _ => if values.head?.any M.truth then 1 else 0

def interp : Interp (Frame D) (Call D) (Result D) where
  perform := M.perform oracle
  decide kind operands s := ([], M.outcome kind (operands.map (M.eval s.env)), s)
  ret operands s := .returned (operands.map (M.eval s.env))
  lost := .lost

/-- The interpretation with values, where all instructions can be observed, with the values of their
operands. -/
def trace : Interp (Frame D) (Kind × List D) (Result D) where
  perform i s := (M.perform oracle i s).map fun r ↦ ([(i.kind, i.operands.map (M.eval s.env))], r.2)
  decide kind operands s :=
    let values := operands.map (M.eval s.env)
    ([(kind, values)], M.outcome kind values, s)
  ret operands s := .returned (operands.map (M.eval s.env))
  lost := .lost

end Meaning

/-! ### Instructions that do the same -/

section Alike

variable {D : Type} {M : Meaning D} {oracle : List (Call D) → D} {U : ℕ → Prop} {s s' : Frame D}
  {i i' : Instr}

/-- The frames have the same values where it matters. -/
structure Frame.Agree (U : ℕ → Prop) (s s' : Frame D) : Prop where
  calls_eq : s.calls = s'.calls
  env_eq : ∀ id, U id → s.env id = s'.env id

/-- The instructions do the same, where only the values in `U` matter. -/
structure Instr.Alike (U : ℕ → Prop) (i i' : Instr) : Prop where
  kind_eq : i.kind = i'.kind
  operands_eq : i.operands = i'.operands
  uses : ∀ id, .instr id ∈ i.operands → U id
  /-- Their values are one, or do not matter. -/
  id_eq : i.kind.isTerminator = false → i.id = i'.id ∨ (¬U i.id ∧ ¬U i'.id)

theorem Frame.Agree.define (h : s.Agree U s') {id id' : ℕ}
    (hid : id = id' ∨ (¬U id ∧ ¬U id')) (d : D) :
    Frame.Agree U { s with env := update s.env id d }
      { s' with env := update s'.env id' d } := by
  refine ⟨h.calls_eq, fun k hU ↦ ?_⟩
  show update s.env id d k = update s'.env id' d k
  rcases hid with rfl | ⟨hid, hid'⟩
  · by_cases heq : k = id
    · rw [heq, update_self, update_self]
    · rw [update_of_ne heq, update_of_ne heq, h.env_eq k hU]
  · have hne : k ≠ id := fun heq ↦ hid (heq ▸ hU)
    have hne' : k ≠ id' := fun heq ↦ hid' (heq ▸ hU)
    rw [update_of_ne hne, update_of_ne hne', h.env_eq k hU]

theorem Meaning.eval_congr (h : s.Agree U s') {o : Operand} (ho : ∀ id, o = .instr id → U id) :
    M.eval s.env o = M.eval s'.env o := by
  cases o with
  | instr id => exact h.env_eq id (ho id rfl)
  | _ => rfl

variable {os : List Operand}

theorem Meaning.map_eval_congr (h : s.Agree U s')
    (hos : ∀ id, .instr id ∈ os → U id) : os.map (M.eval s.env) = os.map (M.eval s'.env) :=
  map_congr_left fun _ ho ↦ eval_congr h fun id hid ↦ hos id (hid ▸ ho)

/-- Both end in the same way, or both go on to frames that agree. -/
def Frame.Matches (U : ℕ → Prop) (r r' : Except (Result D) (List (Call D) × Frame D)) : Prop :=
  (∃ e, r = .error e ∧ r' = .error e) ∨
    ∃ es t t', r = .ok (es, t) ∧ r' = .ok (es, t') ∧ Frame.Agree U t t'

theorem Frame.Agree.matches_define (h : s.Agree U s')
    (hid : i.id = i'.id ∨ (¬U i.id ∧ ¬U i'.id)) (d : Option D) :
    Frame.Matches U (s.define i d) (s'.define i' d) := by
  rcases d with - | d
  · exact .inl ⟨_, rfl, rfl⟩
  · exact .inr ⟨_, _, _, rfl, rfl, h.define hid d⟩

/-- **Instructions that are alike do the same.** -/
theorem Instr.Alike.perform (h : i.Alike U i') (hkind : i.kind.isTerminator = false)
    (hs : s.Agree U s') : Frame.Matches U (M.perform oracle i s) (M.perform oracle i' s') := by
  have hid := h.id_eq hkind
  obtain ⟨id, kind, operands⟩ := i
  obtain ⟨id', kind', operands'⟩ := i'
  obtain ⟨rfl, rfl, huses, -⟩ := h
  have hvals : operands.map (M.eval s.env) = operands.map (M.eval s'.env) :=
    Meaning.map_eval_congr hs huses
  have hargs : operands.tail.map (M.eval s.env) = operands.tail.map (M.eval s'.env) :=
    Meaning.map_eval_congr hs fun id hid ↦ huses id (mem_of_mem_tail hid)
  have hdef := fun d ↦ hs.matches_define hid d
  cases kind with
  | nop => exact .inr ⟨_, _, _, rfl, rfl, hs⟩
  | store =>
    simp only [Meaning.perform]
    split
    · next v index e =>
      have hU : ∀ o ∈ [.instr v, index, e], M.eval s.env o = M.eval s'.env o :=
        fun o ho ↦ Meaning.eval_congr hs fun id hid ↦ huses id (hid ▸ ho)
      have hv : s.env v = s'.env v := hU (.instr v) (by simp)
      rw [hv, hU index (by simp), hU e (by simp)]
      refine .inr ⟨_, _, _, rfl, rfl, ?_⟩
      exact hs.define (.inl rfl) _
    · exact .inl ⟨_, rfl, rfl⟩
  | load =>
    simp only [Meaning.perform, hvals]
    exact hdef _
  | call =>
    simp only [Meaning.perform, hargs, hs.calls_eq]
    exact .inr ⟨_, _, _, rfl, rfl, rfl, (hs.define hid _).env_eq⟩
  | handlerCall =>
    simp only [Meaning.perform, hargs, hs.calls_eq]
    split
    · exact .inl ⟨_, rfl, rfl⟩
    · exact .inr ⟨_, _, _, rfl, rfl, rfl, hs.env_eq⟩
  | _ =>
    simp only [Meaning.perform, hvals]
    exact hdef _

theorem Meaning.decide_eq (hs : s.Agree U s') (kind : Kind) (hos : ∀ id, .instr id ∈ os → U id) :
    ∃ n, (M.interp oracle).decide kind os s = ([], n, s) ∧
      (M.interp oracle).decide kind os s' = ([], n, s') := by
  simp only [Meaning.interp, Meaning.map_eval_congr hs hos]
  exact ⟨_, rfl, rfl⟩

end Alike

/-! ### Handlers that do the same -/

/-- From these blocks on, the same calls are made, with the same results, whatever the calls
return. -/
def SameFrom (h : Handler) (b : ℕ) (h' : Handler) (b' : ℕ) : Prop :=
  ∀ (D : Type) (M : Meaning D) (oracle : List (Call D) → D) (s : Frame D),
    Machine.Same (h.machine (M.interp oracle)) (h'.machine (M.interp oracle)) (h.code b, s)
      (h'.code b', s)

/-- The handlers make the same calls, with the same results, whatever the calls return. -/
def SameCalls (h h' : Handler) : Prop :=
  ∀ (D : Type) (M : Meaning D) (oracle : List (Call D) → D) (s : Frame D),
    Machine.Same (h.machine (M.interp oracle)) (h'.machine (M.interp oracle)) (h.start s)
      (h'.start s)

theorem SameCalls.refl (h : Handler) : SameCalls h h := fun _ _ _ _ ↦ .refl _ _

variable {h h' h'' : Handler}

theorem SameCalls.trans (hsame : SameCalls h h') (hsame' : SameCalls h' h'') : SameCalls h h'' :=
  fun D M oracle s ↦ (hsame D M oracle s).trans (hsame' D M oracle s)

variable {b b' : ℕ}

theorem sameCalls_iff (hb : h.entry = some b) (hb' : h'.entry = some b') :
    SameCalls h h' ↔ SameFrom h b h' b' := by
  simp only [SameCalls, SameFrom, Handler.start, hb, hb', map_some, getD_some]

/-- From these blocks on, the same instructions are gone through, whatever they do and however
conditions come out. -/
def SameRunsFrom (h : Handler) (b : ℕ) (h' : Handler) (b' : ℕ) : Prop :=
  ∀ (S E R : Type) (I : Interp S E R) (s : S),
    Machine.Same (h.machine I) (h'.machine I) (h.code b, s) (h'.code b', s)

/-- The handlers go through the same instructions. -/
def SameRuns (h h' : Handler) : Prop :=
  ∀ (S E R : Type) (I : Interp S E R) (s : S),
    Machine.Same (h.machine I) (h'.machine I) (h.start s) (h'.start s)

theorem SameRunsFrom.symm (hsame : SameRunsFrom h b h' b') : SameRunsFrom h' b' h b :=
  fun _ _ _ I s ↦ (hsame _ _ _ I s).symm

theorem SameRunsFrom.trans {b'' : ℕ} (hsame : SameRunsFrom h b h' b')
    (hsame' : SameRunsFrom h' b' h'' b'') : SameRunsFrom h b h'' b'' :=
  fun _ _ _ I s ↦ (hsame _ _ _ I s).trans (hsame' _ _ _ I s)

theorem sameRuns_iff (hb : h.entry = some b) (hb' : h'.entry = some b') :
    SameRuns h h' ↔ SameRunsFrom h b h' b' := by
  simp only [SameRuns, SameRunsFrom, Handler.start, hb, hb', map_some, getD_some]

theorem sameRunsFrom_of_closed (hcode : ∀ b ∈ h'.blocks, h'.code b = h.code b)
    (hblocks : ∀ b ∈ h'.blocks, b ∈ h.blocks)
    (hclosed : ∀ b ∈ h'.blocks, ∀ i ∈ h.code b, ∀ c, .block c ∈ i.operands → c ∈ h'.blocks)
    (hb : b ∈ h'.blocks) : SameRunsFrom h b h' b := by
  intro S E R I s
  let Rel : List Instr × S → List Instr × S → Prop := fun p p' ↦
    p = p' ∧ ∃ b ∈ h'.blocks, p.1 <:+ h.code b
  have hjump : ∀ {es : List E} {s : S} {o : Option Operand},
      (∀ c, o = some (.block c) → c ∈ h'.blocks) →
      (h.jump I es s o = .error I.lost ∧ h'.jump I es s o = .error I.lost) ∨
        ∃ p, h.jump I es s o = .ok (es, p) ∧ h'.jump I es s o = .ok (es, p) ∧ Rel p p := by
    intro es s o ho
    rcases o with - | o
    · exact Or.inl ⟨rfl, rfl⟩
    cases o with
    | block c =>
      have hc := ho c rfl
      refine Or.inr ⟨(h.code c, s), if_pos (hblocks c hc), ?_, rfl, c, hc, suffix_refl _⟩
      rw [← hcode c hc]
      exact if_pos hc
    | _ => exact Or.inl ⟨rfl, rfl⟩
  have hmatches : ∀ p p', Rel p p' →
      Machine.Matches (h.machine I) (h'.machine I) Rel (fun _ ↦ 0) p p' := by
    rintro ⟨c, s⟩ - ⟨rfl, b, hb, hsuffix⟩
    rcases c with - | ⟨i, is⟩
    · exact .ends I.lost rfl rfl
    have hi : i ∈ h.code b := hsuffix.subset mem_cons_self
    have hgo : ∀ {es : List E} {n : ℕ} {r : S}, h.step I (i :: is, s) = h.jump I es r (i.successor n) →
        h'.step I (i :: is, s) = h'.jump I es r (i.successor n) →
        Machine.Matches (h.machine I) (h'.machine I) Rel (fun _ ↦ 0) (i :: is, s) (i :: is, s) := by
      intro es n r hstep hstep'
      rcases @hjump es r (i.successor n)
        (fun c hc ↦ hclosed b hb i hi c (Instr.mem_of_successor hc)) with ⟨h₁, h₂⟩ | ⟨p, h₁, h₂, hp⟩
      · exact .ends I.lost (hstep.trans h₁) (hstep'.trans h₂)
      · exact .steps es p p (hstep.trans h₁) (hstep'.trans h₂) hp
    have hplain : ∀ {r : Except R (List E × S)},
        h.step I (i :: is, s) = r.map (fun r ↦ (r.1, (is, r.2))) →
        h'.step I (i :: is, s) = r.map (fun r ↦ (r.1, (is, r.2))) →
        Machine.Matches (h.machine I) (h'.machine I) Rel (fun _ ↦ 0) (i :: is, s) (i :: is, s) := by
      intro r hstep hstep'
      rcases r with e | ⟨es, r⟩
      · exact .ends e hstep hstep'
      · exact .steps es _ _ hstep hstep' ⟨rfl, b, hb, (suffix_cons i is).trans hsuffix⟩
    obtain ⟨id, kind, operands⟩ := i
    cases kind with
    | ret => exact .ends _ rfl rfl
    | br => exact hgo rfl rfl
    | condBr => exact hgo rfl rfl
    | matchOn op => exact hgo rfl rfl
    | _ => exact hplain rfl rfl
  refine Machine.same_of_matches hmatches ⟨?_, b, hb, suffix_refl _⟩
  rw [hcode b hb]

end Xzero.Flow.Ir
