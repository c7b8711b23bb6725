import Xzero.Flow.Transform.Edit
import Xzero.Library.Transition

/-!
# Instruction elimination

`xzero-flow/transform/InstructionElimination.cc`. A call of `run` makes one change: in the first
block where one of four rules applies it replaces the terminator by other instructions, and with one
of the rules it removes the block that these came from.

Instructions are moved by copying them, and operands that refer to an original are not changed.
**The handler is preserved if and only if nothing that stays refers to an instruction that goes**
(`InstructionElimination.preserves_iff`), as far as the removed block is not the one the handler
begins with.
-/

namespace Xzero.Flow.Ir

open Handler List

/-- What a rule does. -/
inductive Rewrite
  | unchanged
  | changed (h : Handler)
  | undefined

/-- The second rule, if the first one does not apply. -/
def Rewrite.orElse : Rewrite → Rewrite → Rewrite
  | unchanged, r => r
  | r, _ => r

namespace InstructionElimination

def rewriteCondBrToSameBranches (h : Handler) (bb : ℕ) : Rewrite :=
  match h.getTerminator bb with
  | some condbr => match condbr.kind, condbr.operands with
    | .condBr, [_, .block trueBlock, .block falseBlock] =>
      if trueBlock ≠ falseBlock then .unchanged
      else .changed ((h.remove bb condbr).pushNew bb .br [.block trueBlock])
    | _, _ => .unchanged
  | none => .unchanged

/-- `eliminateLinearBr`. A block that is merged with itself would be appended to while it is gone
through. -/
def eliminateLinearBr (h : Handler) (bb : ℕ) : Rewrite :=
  match h.getTerminator bb with
  | some br => match br.kind, br.operands with
    | .br, [.block nextBB] =>
      if (h.predecessors nextBB).length ≠ 1 then .unchanged
      else if (h.predecessors nextBB).head? ≠ some bb then .unchanged
      else if nextBB = bb then .undefined
      else match ((h.remove bb br).mergeBack bb nextBB).erase nextBB with
        | some h => .changed h
        | none => .undefined
    | _, _ => .unchanged
  | none => .unchanged

def foldConstantCondBr (h : Handler) (bb : ℕ) : Rewrite :=
  match h.getTerminator bb with
  | some condbr => match condbr.kind, condbr.operands with
    | .condBr, [.const (.boolean cond), .block trueBlock, .block falseBlock] =>
      .changed ((h.remove bb condbr).pushNew bb .br
        [.block (if cond then trueBlock else falseBlock)])
    | _, _ => .unchanged
  | none => .unchanged

def branchToExit (h : Handler) (bb : ℕ) : Rewrite :=
  match h.getTerminator bb with
  | some br => match br.kind, br.operands with
    | .br, [.block targetBB] =>
      if (h.code targetBB).length ≠ 1 then .unchanged
      else if h.isAfter bb targetBB then .unchanged
      else match h.getTerminator targetBB with
        | some ret => if ret.kind = .ret then
            .changed ((h.remove bb br).pushNew bb .ret ret.operands) else .unchanged
        | none => .unchanged
    | _, _ => .unchanged
  | none => .unchanged

def rewriteBlock (h : Handler) (bb : ℕ) : Rewrite :=
  (rewriteCondBrToSameBranches h bb).orElse <| (eliminateLinearBr h bb).orElse <|
    (foldConstantCondBr h bb).orElse (branchToExit h bb)

def run (h : Handler) : Rewrite :=
  h.blocks.foldr (fun bb r ↦ (rewriteBlock h bb).orElse r) .unchanged

end InstructionElimination

/-! ### What a call does -/

namespace InstructionElimination

/-- The block that is merged into the block `bb`: the target of its branch, if it has no other
predecessor. -/
def merged (h : Handler) (bb : ℕ) : Option ℕ :=
  match h.getTerminator bb with
  | some ⟨_, .br, [.block nextBB]⟩ => if h.predecessors nextBB = [bb] then some nextBB else none
  | _ => none

/-- One of the rules applies to the block. -/
def applies (h : Handler) (bb : ℕ) : Bool :=
  match h.getTerminator bb with
  | some ⟨_, .condBr, [c, .block trueBlock, .block falseBlock]⟩ =>
    trueBlock = falseBlock || c = .const (.boolean true) || c = .const (.boolean false)
  | some ⟨_, .br, [.block target]⟩ =>
    h.predecessors target = [bb] || !h.isAfter bb target && (h.code target).map Instr.kind = [.ret]
  | _ => false

def nextBlock (h : Handler) : Option ℕ := h.blocks.find? (applies h)

/-- What takes the place of a terminator, and the block that goes. -/
inductive Rule (h : Handler) (bb : ℕ) : Instr → List Instr → Option ℕ → Prop
  | sameBranches (id : ℕ) (c : Operand) (b : ℕ) :
    Rule h bb ⟨id, .condBr, [c, .block b, .block b]⟩ [⟨h.next, .br, [.block b]⟩] none
  | linear (id nextBB : ℕ) : h.predecessors nextBB = [bb] → nextBB ≠ bb →
    Rule h bb ⟨id, .br, [.block nextBB]⟩ (clones h.next (h.code nextBB)) (some nextBB)
  | constant (id : ℕ) (cond : Bool) (b b' : ℕ) :
    Rule h bb ⟨id, .condBr, [.const (.boolean cond), .block b, .block b']⟩
      [⟨h.next, .br, [.block (if cond then b else b')]⟩] none
  | exit (id target : ℕ) (ret : Instr) : h.predecessors target ≠ [bb] → h.code target = [ret] →
    ret.kind = .ret →
    Rule h bb ⟨id, .br, [.block target]⟩ [⟨h.next, .ret, ret.operands⟩] none

/-- The outcome for one block. -/
inductive Outcome (h : Handler) (bb : ℕ) : Rewrite → Prop
  | unchanged : applies h bb = false → Outcome h bb .unchanged
  | undefined : applies h bb = true → merged h bb = some bb → Outcome h bb .undefined
  | changed {h' : Handler} {body : List Instr} {t : Instr} {new : List Instr} {gone : Option ℕ} :
    applies h bb = true → merged h bb = gone → Rule h bb t new gone →
    Edited h h' bb body t new gone → Outcome h bb (.changed h')

section

variable {h : Handler} {bb : ℕ} {body : List Instr}

theorem length_eq_one_iff {ps : List ℕ} : (ps.length = 1 ∧ ps.head? = some bb) ↔ ps = [bb] := by
  rcases ps with - | ⟨p, - | ⟨q, ps⟩⟩ <;> simp

section

variable (hwf : h.WellFormed) (hbb : bb ∈ h.blocks)
include hwf hbb

theorem outcome_condBr {id : ℕ} {c : Operand} {b b' : ℕ}
    (hcode : h.code bb = body ++ [⟨id, .condBr, [c, .block b, .block b']⟩]) :
    Outcome h bb (rewriteBlock h bb) := by
  have ht := getTerminator_eq hcode rfl
  have hmem : ∀ a, .block a ∈ [c, .block b, .block b'] → a ∈ h.blocks := fun a ↦
    hwf.refers bb _ (by rw [hcode]; exact mem_append_right _ mem_cons_self) (.block a)
  have hmerged : merged h bb = none := by simp only [merged, ht]
  have hlinear : eliminateLinearBr h bb = .unchanged := by simp only [eliminateLinearBr, ht]
  have hexit : branchToExit h bb = .unchanged := by simp only [branchToExit, ht]
  by_cases heq : b = b'
  · subst heq
    have hrule : rewriteBlock h bb =
        .changed ((h.remove bb ⟨id, .condBr, [c, .block b, .block b]⟩).pushNew bb .br [.block b]) := by
      simp only [rewriteBlock, rewriteCondBrToSameBranches, ht]
      rw [if_neg (not_not.2 rfl), Rewrite.orElse]
      exact nofun
    rw [hrule]
    exact .changed (by simp [applies, ht]) hmerged (.sameBranches id c b)
      (edited_pushNew hwf hbb hcode rfl rfl (Or.inr ⟨b, hmem b (by simp), rfl⟩))
  · have hsame : rewriteCondBrToSameBranches h bb = .unchanged := by
      simp only [rewriteCondBrToSameBranches, ht, ne_eq, heq, not_false_eq_true, if_true]
    by_cases hc : ∃ cond, c = .const (.boolean cond)
    · obtain ⟨cond, rfl⟩ := hc
      have hrule : rewriteBlock h bb = .changed ((h.remove bb
          ⟨id, .condBr, [.const (.boolean cond), .block b, .block b']⟩).pushNew bb .br
            [.block (if cond then b else b')]) := by
        simp only [rewriteBlock, hsame, hlinear, Rewrite.orElse, foldConstantCondBr, ht]
      rw [hrule]
      have huse : (if cond then b else b') ∈ h.blocks := by
        cases cond
        · exact hmem b' (by simp)
        · exact hmem b (by simp)
      exact .changed (by cases cond <;> simp [applies, ht]) hmerged (.constant id cond b b')
        (edited_pushNew hwf hbb hcode rfl rfl (Or.inr ⟨_, huse, rfl⟩))
    · have hfold : foldConstantCondBr h bb = .unchanged := by
        simp only [foldConstantCondBr, ht]
        rcases c with (n | cond | s) | _ | _ | _ | _ | _ <;> first | rfl | exact (hc ⟨_, rfl⟩).elim
      have hrule : rewriteBlock h bb = .unchanged := by
        simp only [rewriteBlock, hsame, hlinear, hfold, hexit, Rewrite.orElse]
      rw [hrule]
      refine .unchanged ?_
      have htrue : c ≠ .const (.boolean true) := fun h ↦ hc ⟨_, h⟩
      have hfalse : c ≠ .const (.boolean false) := fun h ↦ hc ⟨_, h⟩
      simp [applies, ht, heq, htrue, hfalse]

theorem outcome_br {id target : ℕ} (hcode : h.code bb = body ++ [⟨id, .br, [.block target]⟩]) :
    Outcome h bb (rewriteBlock h bb) := by
  have ht := getTerminator_eq hcode rfl
  have hmem : target ∈ h.blocks :=
    hwf.refers bb _ (by rw [hcode]; exact mem_append_right _ List.mem_cons_self) (.block target)
      List.mem_cons_self
  have hsame : rewriteCondBrToSameBranches h bb = .unchanged := by
    simp only [rewriteCondBrToSameBranches, ht]
  have hfold : foldConstantCondBr h bb = .unchanged := by simp only [foldConstantCondBr, ht]
  by_cases hpreds : h.predecessors target = [bb]
  · have happlies : applies h bb = true := by simp [applies, ht, hpreds]
    have hmerged : merged h bb = some target := by simp only [merged, ht, hpreds, if_true]
    have hlinear : eliminateLinearBr h bb = if target = bb then .undefined
        else match ((h.remove bb ⟨id, .br, [.block target]⟩).mergeBack bb target).erase target with
          | some h => .changed h
          | none => .undefined := by
      simp only [eliminateLinearBr, ht, hpreds, length_singleton, head?_cons, ne_eq,
        not_true_eq_false, if_false]
    by_cases hself : target = bb
    · rw [if_pos hself] at hlinear
      rw [show rewriteBlock h bb = .undefined by
        simp only [rewriteBlock, hsame, hlinear, Rewrite.orElse]]
      exact .undefined happlies (hself ▸ hmerged)
    · obtain ⟨h', herase, hedit⟩ := edited_mergeBack hwf hbb hcode rfl rfl hpreds hself hmem
      rw [if_neg hself, herase] at hlinear
      rw [show rewriteBlock h bb = .changed h' by
        simp only [rewriteBlock, hsame, hlinear, Rewrite.orElse]]
      exact .changed happlies hmerged (.linear id target hpreds hself) hedit
  · have hmerged : merged h bb = none := by simp only [merged, ht, hpreds, if_false]
    have hlinear : eliminateLinearBr h bb = .unchanged := by
      simp only [eliminateLinearBr, ht]
      by_cases hlen : (h.predecessors target).length = 1
      · rw [if_neg (not_not.2 hlen), if_pos fun hhead ↦ hpreds (length_eq_one_iff.1 ⟨hlen, hhead⟩)]
      · rw [if_pos hlen]
    have hrule : rewriteBlock h bb = branchToExit h bb := by
      simp only [rewriteBlock, hsame, hlinear, hfold, Rewrite.orElse]
    rw [hrule]
    obtain ⟨body', t', hcode', ht', -⟩ := hwf.terminated target hmem
    have hterm' := getTerminator_eq hcode' ht'
    simp only [branchToExit, ht, hterm']
    by_cases hlen : (h.code target).length = 1
    · rw [if_neg (not_not.2 hlen)]
      obtain ⟨ret, hret⟩ := List.length_eq_one_iff.1 hlen
      obtain rfl : ret = t' := by
        rw [hcode'] at hret
        exact (append_inj' (hret.trans (nil_append [ret]).symm) rfl).2 |> List.cons.inj
          |>.1.symm
      cases hafter : h.isAfter bb target with
      | true => exact .unchanged (by simp [applies, ht, hpreds, hafter])
      | false =>
        by_cases hkind : ret.kind = .ret
        · simp only [hkind, if_true]
          have hne : ret ≠ ⟨id, .br, [.block target]⟩ := by
            rintro rfl
            cases hkind
          exact .changed (by simp [applies, ht, hafter, hret, hkind]) hmerged
            (.exit id target ret hpreds hret hkind) (edited_pushNew hwf hbb hcode rfl rfl
              (Or.inl ⟨target, ret, hret ▸ List.mem_cons_self, hne, rfl⟩))
        · simp only [hkind, if_false]
          exact .unchanged (by simp [applies, ht, hpreds, hret, hkind])
    · rw [if_pos hlen]
      refine .unchanged ?_
      have hmap : (h.code target).map Instr.kind ≠ [.ret] := fun heq ↦
        hlen (by simpa using congrArg length heq)
      simp [applies, ht, hpreds, hmap]

/-- **What the rules do with a block.** -/
theorem outcome_rewriteBlock : Outcome h bb (rewriteBlock h bb) := by
  obtain ⟨body, t, hcode, ht, -⟩ := hwf.terminated bb hbb
  have hterm := getTerminator_eq hcode ht
  have hother : applies h bb = false → rewriteCondBrToSameBranches h bb = .unchanged →
      eliminateLinearBr h bb = .unchanged → foldConstantCondBr h bb = .unchanged →
      branchToExit h bb = .unchanged → Outcome h bb (rewriteBlock h bb) := by
    intro happlies h₁ h₂ h₃ h₄
    rw [rewriteBlock, h₁, h₂, h₃, h₄]
    exact .unchanged happlies
  obtain ⟨id, kind, operands⟩ := t
  by_cases hcond : ∃ c b b', kind = .condBr ∧ operands = [c, .block b, .block b']
  · obtain ⟨c, b, b', rfl, rfl⟩ := hcond
    exact outcome_condBr hwf hbb hcode
  by_cases hbr : ∃ target, kind = .br ∧ operands = [.block target]
  · obtain ⟨target, rfl, rfl⟩ := hbr
    exact outcome_br hwf hbb hcode
  · refine hother ?_ ?_ ?_ ?_ ?_
    · unfold applies
      rw [hterm]
      split
      · next heq =>
        cases heq
        exact (hcond ⟨_, _, _, rfl, rfl⟩).elim
      · next heq =>
        cases heq
        exact (hbr ⟨_, rfl, rfl⟩).elim
      · rfl
    · simp only [rewriteCondBrToSameBranches, hterm]
      split
      · exact (hcond ⟨_, _, _, rfl, rfl⟩).elim
      · rfl
    · simp only [eliminateLinearBr, hterm]
      split
      · exact (hbr ⟨_, rfl, rfl⟩).elim
      · rfl
    · simp only [foldConstantCondBr, hterm]
      split
      · exact (hcond ⟨_, _, _, rfl, rfl⟩).elim
      · rfl
    · simp only [branchToExit, hterm]
      split
      · exact (hbr ⟨_, rfl, rfl⟩).elim
      · rfl

end

theorem outcome_run (hwf : h.WellFormed) :
    (nextBlock h = none ∧ run h = .unchanged) ∨ ∃ bb ∈ h.blocks, nextBlock h = some bb ∧
      applies h bb = true ∧ Outcome h bb (run h) := by
  have hmem : ∀ b ∈ h.blocks, Outcome h b (rewriteBlock h b) := fun b hb ↦
    outcome_rewriteBlock hwf hb
  unfold nextBlock run
  generalize h.blocks = blocks at hmem ⊢
  induction blocks with
  | nil => exact .inl ⟨rfl, rfl⟩
  | cons b bs ih =>
    rw [foldr_cons, find?_cons]
    have hb := hmem b mem_cons_self
    cases happlies : applies h b with
    | true =>
      refine .inr ⟨b, mem_cons_self, rfl, happlies, ?_⟩
      generalize rewriteBlock h b = r at hb ⊢
      cases hb with
      | unchanged hfalse => cases happlies.symm.trans hfalse
      | undefined h₁ h₂ => exact .undefined h₁ h₂
      | changed h₁ h₂ h₃ h₄ => exact .changed h₁ h₂ h₃ h₄
    | false =>
      have hunchanged : rewriteBlock h b = .unchanged := by
        generalize rewriteBlock h b = r at hb ⊢
        cases hb with
        | unchanged => rfl
        | undefined htrue | changed htrue => cases happlies.symm.trans htrue
      rw [hunchanged]
      obtain hnone | ⟨bb, hbb, h₁⟩ := ih fun b hb ↦ hmem b (mem_cons_of_mem _ hb)
      · exact .inl hnone
      · exact .inr ⟨bb, mem_cons_of_mem b hbb, h₁⟩

end

/-! ### The rules preserve the handler -/

section

variable {h h' : Handler} {bb : ℕ} {body new : List Instr} {t : Instr} {gone : Option ℕ}

theorem lt_of_uses (hwf : h.WellFormed) {id : ℕ} (huse : h.Uses t id) : id < h.next := by
  obtain ⟨b, i, hi, -, hop⟩ := huse
  obtain ⟨c, -, j, hj, rfl⟩ := hwf.refers b i hi _ hop
  exact hwf.fresh c j hj

theorem forall₂_clones {U : ℕ → Prop} {n : ℕ} {is : List Instr} (hfresh : ∀ id, U id → id < n)
    (his : ∀ i ∈ is, ¬U i.id ∧ ∀ id, .instr id ∈ i.operands → U id) :
    is.Forall₂ (Instr.Alike U) (clones n is) := by
  induction is generalizing n with
  | nil => exact .nil
  | cons i is ih =>
    obtain ⟨hid, huses⟩ := his i mem_cons_self
    refine .cons ⟨rfl, rfl, huses, fun _ ↦ .inr ⟨hid, fun hU ↦ ?_⟩⟩ (ih ?_ ?_)
    · exact lt_irrefl n (hfresh n hU)
    · exact fun id hU ↦ Nat.lt_succ_of_lt (hfresh id hU)
    · exact fun j hj ↦ his j (mem_cons_of_mem i hj)

variable {D : Type} {M : Meaning D} {oracle : List (Call D) → D}

theorem Rule.follows (hwf : h.WellFormed) (hedit : Edited h h' bb body t new gone)
    (hrule : Rule h bb t new gone) (hsafe : ∀ id, h.Deletes t gone id → ¬h.Uses t id)
    {s s' : Frame D} (hs : s.Agree (h.Uses t) s') :
    Edited.Follows h h' bb body t new M oracle ([t], s) (new, s') := by
  have hrefers := hwf.refers bb t (Edited.mem_t hedit)
  cases hrule with
  | sameBranches id c b =>
    have hb : b ∈ h.blocks := hrefers (.block b) (by simp)
    refine Edited.follows_jump hwf hedit (o := some (.block b)) ?_ rfl ?_ hs
    · show h.jump _ [] s (Instr.successor _ (if _ then 1 else 0)) = _
      split <;> rfl
    · rintro c ⟨⟩
      exact ⟨hb, nofun⟩
  | constant id cond b b' =>
    have hb : (if cond then b else b') ∈ h.blocks := by
      cases cond
      · exact hrefers (.block b') (by simp)
      · exact hrefers (.block b) (by simp)
    refine Edited.follows_jump hwf hedit (o := some (.block (if cond then b else b'))) ?_ rfl ?_ hs
    · show h.jump _ [] s (Instr.successor _
        (if M.truth (M.value (.const (.boolean cond))) = true then 1 else 0)) = _
      rw [M.truth_boolean]
      cases cond <;> rfl
    · rintro c ⟨⟩
      exact ⟨hb, nofun⟩
  | exit id target ret hpreds hret hkind =>
    have hb : target ∈ h.blocks := hrefers (.block target) (by simp)
    have hmem : ret ∈ h.code target := hret ▸ mem_cons_self
    have hne : target ≠ bb := by
      rintro rfl
      have heq := hedit.code_eq.symm.trans hret
      cases (append_inj' (heq.trans (nil_append [ret]).symm) rfl).2
      cases hkind
    have hne' := ne_of_mem hwf hedit.code_eq hmem hne
    refine .stutters (h.code target, s) (if_pos hb) ⟨hs, .inl ⟨target, hb, hne,
      suffix_refl _, ?_⟩⟩ ?_
    · rw [hret]
      refine .cons ⟨hkind, rfl, fun id hop ↦ ⟨target, ret, hmem, hne', hop⟩, fun hfalse ↦ ?_⟩ .nil
      rw [hkind] at hfalse
      cases hfalse
    · rw [if_pos rfl, if_neg fun heq ↦ hne' (cons.inj (hret.symm.trans heq)).1]
      exact one_pos
  | linear id nextBB hpreds hne =>
    have hb : nextBB ∈ h.blocks := hrefers (.block nextBB) (by simp)
    refine .stutters (h.code nextBB, s) (if_pos hb) ⟨hs, .inl ⟨nextBB, hb, hne,
      suffix_refl _, ?_⟩⟩ ?_
    · refine forall₂_clones (fun id huse ↦ lt_of_uses hwf huse) fun i hi ↦ ⟨?_, fun id hop ↦ ?_⟩
      · exact hsafe i.id (.inr ⟨nextBB, rfl, i, hi, rfl⟩)
      · exact ⟨nextBB, i, hi, ne_of_mem hwf hedit.code_eq hi hne, hop⟩
    · show (if h.code nextBB = _ then 1 else 0) < if _ then 1 else 0
      rw [if_pos rfl, if_neg fun heq ↦ ?_]
      · exact one_pos
      · exact ne_of_mem hwf hedit.code_eq (heq ▸ mem_cons_self) hne rfl

end

/-! ### Calls -/

/-- All operands are constants or in the handler. -/
def Closed (h : Handler) : Prop := ∀ b ∈ h.blocks, ∀ i ∈ h.code b, ∀ o ∈ i.operands, h.Refers o

/-- The handler that results has all its operands and makes the same calls. -/
def Preserves (h : Handler) : Rewrite → Prop
  | .unchanged => True
  | .changed h' => Closed h' ∧ SameCalls h h'
  | .undefined => False

/-- The next call can be made: nothing that stays refers to an instruction that goes, a block is not
merged with itself, and if the block that goes is the entry block, the handler could as well begin
with the block after it. -/
structure Safe (h : Handler) : Prop where
  /-- Nothing refers to an instruction that goes. -/
  unused : ∀ bb t, nextBlock h = some bb → h.getTerminator bb = some t →
    ∀ id, h.Deletes t (merged h bb) id → ¬h.Uses t id
  /-- A block is not merged with itself. -/
  ne_self : ∀ bb, nextBlock h = some bb → merged h bb ≠ some bb
  /-- The handler can begin with the second block. -/
  entry : ∀ bb b b' bs, nextBlock h = some bb → merged h bb = some b → h.blocks = b :: b' :: bs →
    SameFrom h b' h b

section

variable {h h' : Handler} {bb : ℕ} {body new : List Instr} {t : Instr} {gone : Option ℕ}

theorem sameCalls_of_edited (hwf : h.WellFormed) (hedit : Edited h h' bb body t new gone)
    (hsame : ∀ b ∈ h'.blocks, SameFrom h b h' b) :
    SameCalls h h' ↔ ∀ b b' bs, gone = some b → h.blocks = b :: b' :: bs → SameFrom h b' h b := by
  obtain ⟨e, es, hes⟩ := exists_cons_of_ne_nil hwf.ne_nil
  have hentry : h.entry = some e := by rw [Handler.entry, hes]; rfl
  by_cases hgone : e ∈ gone
  · obtain rfl : gone = some e := hgone
    have hblocks : h'.blocks = es := by
      rw [hedit.blocks_eq]
      show h.blocks.erase e = es
      rw [hes, erase_cons_head]
    obtain ⟨e', es', hes'⟩ : ∃ e' es', es = e' :: es' :=
      exists_cons_of_ne_nil (ne_nil_of_mem
        (hblocks ▸ (hedit.mem_blocks hwf).2 ⟨hedit.mem, hedit.ne_gone⟩))
    have hmem : e' ∈ h'.blocks := by rw [hblocks, hes']; exact mem_cons_self
    have hentry' : h'.entry = some e' := by rw [Handler.entry, hblocks, hes']; rfl
    rw [sameCalls_iff hentry hentry']
    constructor
    · rintro hcalls b b' bs ⟨⟩ hbs
      cases hes.symm.trans hbs
      cases hes'
      exact fun D M oracle s ↦ (hsame e' hmem D M oracle s).trans (hcalls D M oracle s).symm
    · intro hsecond D M oracle s
      have := hsecond e e' es' rfl (hes'.symm ▸ hes) D M oracle s
      exact this.symm.trans (hsame e' hmem D M oracle s)
  · have hmem : e ∈ h'.blocks :=
      (hedit.mem_blocks hwf).2 ⟨hes ▸ mem_cons_self, hgone⟩
    have hentry' : h'.entry = some e := by
      rw [Handler.entry, hedit.blocks_eq]
      rcases gone with - | c
      · exact hentry
      · have hne : e ≠ c := fun heq ↦ hgone (heq ▸ rfl)
        show (h.blocks.erase c).head? = _
        rw [hes, erase_cons_tail (by simpa using hne)]
        rfl
    rw [sameCalls_iff hentry hentry']
    refine iff_of_true (hsame e hmem) ?_
    rintro b b' bs rfl hbs
    cases hes.symm.trans hbs
    exact (hgone rfl).elim

theorem closed_of_wellFormed (hwf : h.WellFormed) : Closed h := fun b _ ↦ hwf.refers b

theorem preserves_changed (hwf : h.WellFormed) (hedit : Edited h h' bb body t new gone)
    (hrule : Rule h bb t new gone) : Preserves h (.changed h') ↔
      (∀ id, h.Deletes t gone id → ¬h.Uses t id) ∧
        ∀ b b' bs, gone = some b → h.blocks = b :: b' :: bs → SameFrom h b' h b := by
  constructor
  · rintro ⟨hclosed, hcalls⟩
    have hsafe := (hedit.refers_iff hwf).1 hclosed
    exact ⟨hsafe, (sameCalls_of_edited hwf hedit fun b hb D M oracle s ↦
      hedit.same hwf (fun hs ↦ hrule.follows hwf hedit hsafe hs) hb s).1 hcalls⟩
  · rintro ⟨hsafe, hentry⟩
    exact ⟨(hedit.refers_iff hwf).2 hsafe, (sameCalls_of_edited hwf hedit fun b hb D M oracle s ↦
      hedit.same hwf (fun hs ↦ hrule.follows hwf hedit hsafe hs) hb s).2 hentry⟩

/-- **One call preserves the handler if and only if it is safe.** -/
theorem preserves_run_iff (hwf : h.WellFormed) : Preserves h (run h) ↔ Safe h := by
  obtain ⟨hnone, hrun⟩ | ⟨bb, hbb, hnext, happlies, hout⟩ := outcome_run hwf
  · rw [hrun]
    refine iff_of_true trivial ⟨?_, ?_, ?_⟩
    · intro bb t hbb
      cases hnone.symm.trans hbb
    · intro bb hbb
      cases hnone.symm.trans hbb
    · intro bb b b' bs hbb
      cases hnone.symm.trans hbb
  · generalize run h = r at hout
    cases hout with
    | unchanged hfalse => cases happlies.symm.trans hfalse
    | undefined _ hself => exact iff_of_false id fun hsafe ↦ hsafe.ne_self bb hnext hself
    | @changed h' body t new gone _ hmerged hrule hedit =>
      rw [preserves_changed hwf hedit hrule]
      obtain ⟨body', t', hcode, ht', -⟩ := hwf.terminated bb hbb
      obtain ⟨-, heq⟩ := append_inj' (hedit.code_eq.symm.trans hcode) rfl
      have hterm : h.getTerminator bb = some t := by
        rw [getTerminator_eq hcode ht', (cons.inj heq).1]
      constructor
      · rintro ⟨hunused, hentry⟩
        refine ⟨?_, ?_, ?_⟩
        · intro bb' t' hbb' ht'
          cases hnext.symm.trans hbb'
          cases hterm.symm.trans ht'
          rw [hmerged]
          exact hunused
        · intro bb' hbb' hself
          cases hnext.symm.trans hbb'
          exact hedit.ne_gone (hmerged.symm.trans hself)
        · intro bb' b b' bs hbb' hb
          cases hnext.symm.trans hbb'
          exact hentry b b' bs (hmerged.symm.trans hb)
      · intro hsafe
        exact ⟨hmerged ▸ hsafe.unused bb t hnext hterm, fun b b' bs hb ↦
          hsafe.entry bb b b' bs hnext (hmerged.trans hb)⟩

/-- Calls one after the other, as long as they change the handler. -/
def calls (h : Handler) : TransitionSystem Handler Unit where
  init := h
  step h _ := match run h with
    | .changed h' => some h'
    | _ => none

theorem wellFormed_run (hwf : h.WellFormed) (hsafe : Safe h) (hrun : run h = .changed h') :
    h'.WellFormed := by
  obtain ⟨-, hrun'⟩ | ⟨bb, hbb, hnext, -, hout⟩ := outcome_run hwf
  · cases hrun.symm.trans hrun'
  · rw [hrun] at hout
    cases hout with
    | @changed _ body t new gone _ hmerged hrule hedit =>
      have hpres : Preserves h (.changed h') := hrun ▸ (preserves_run_iff hwf).2 hsafe
      exact hedit.wellFormed hwf ((preserves_changed hwf hedit hrule).1 hpres).1

end

/-- An entry block that branches to a second block. -/
def branchTo (code : List Instr) (next : ℕ) : Handler where
  blocks := [0, 1]
  code b := if b = 0 then [⟨0, .br, [.block 1]⟩] else if b = 1 then code else []
  predecessors b := if b = 1 then [0] else []
  successors b := if b = 0 then [1] else []
  next := next

theorem branchTo_outside (code : List Instr) (next : ℕ) : ∀ b ∉ (branchTo code next).blocks,
    (branchTo code next).code b = [] ∧ (branchTo code next).predecessors b = [] ∧
      (branchTo code next).successors b = [] := by
  intro b hb
  have hb : b ≠ 0 ∧ b ≠ 1 := by simpa [branchTo] using hb
  simp [branchTo, hb.1, hb.2]

end InstructionElimination

end Xzero.Flow.Ir
