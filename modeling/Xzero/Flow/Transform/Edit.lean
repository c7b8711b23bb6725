import Xzero.Flow.Ir.Execution

/-!
# Changes to a block

A terminator is replaced by other instructions (`Edited`): by another terminator (`edited_pushNew`),
or by copies of the code of the block it leads to, which then goes (`edited_mergeBack`).

The operands of the handler are in the handler afterwards if and only if nothing that stays refers
to an instruction that goes (`Edited.refers_iff`), the handler is then well formed again
(`Edited.wellFormed`), and **if the new instructions do what the terminator did, all blocks do what
they did** (`Edited.same`).
-/

namespace Xzero.Flow.Ir

open Function Handler List Option Instr Interp

/-- The terminator `t` of the block `bb` is replaced by other instructions, and a block may go. -/
structure Edited (h h' : Handler) (bb : ℕ) (body : List Instr) (t : Instr) (new : List Instr)
    (gone : Option ℕ) : Prop where
  /-- The block is one of the handler. -/
  mem : bb ∈ h.blocks
  code_eq : h.code bb = body ++ [t]
  ne_gone : bb ∉ gone
  code_bb : h'.code bb = body ++ new
  code_gone : ∀ b ∈ gone, h'.code b = []
  code_of_ne : ∀ b, b ≠ bb → b ∉ gone → h'.code b = h.code b
  blocks_eq : h'.blocks = gone.elim h.blocks fun b ↦ h.blocks.erase b
  next_le : h.next ≤ h'.next
  fresh : ∀ i ∈ new, h.next ≤ i.id ∧ i.id < h'.next
  nodup : (new.map Instr.id).Nodup
  terminated : ∃ body t, new = body ++ [t] ∧ t.kind.isTerminator = true ∧
    ∀ i ∈ body, i.kind.isTerminator = false
  /-- Their operands are those of instructions that stay or are copied, or a block. -/
  operands : ∀ i ∈ new, (∃ b, ∃ j ∈ h.code b, j ≠ t ∧ j.operands = i.operands) ∨
    ∃ b ∈ h'.blocks, i.operands = [.block b]
  /-- Blocks are operands of terminators only. -/
  targets_eq_nil : ∀ i ∈ new, i.kind.isTerminator = false → i.targets = []
  /-- The block that goes is one of the handler, and all its instructions are copied. -/
  gone_mem : ∀ b ∈ gone, b ∈ h.blocks
  gone_operands : ∀ b ∈ gone, ∀ j ∈ h.code b, ∃ i ∈ new, i.operands = j.operands
  gone_targets : ∀ b, ∀ i ∈ h.code b, i ≠ t → ∀ c ∈ gone, .block c ∉ i.operands
  /-- Links are those of the terminators. -/
  linked : h'.Linked

section

variable {h h' : Handler} {bb nextBB : ℕ} {body : List Instr} {t : Instr}

variable {b : ℕ} {i : Instr}

theorem ne_of_mem (hwf : h.WellFormed) (hcode : h.code bb = body ++ [t])
    (hi : i ∈ h.code b) (hb : b ≠ bb) : i ≠ t := by
  rintro rfl
  have ht : i ∈ h.code bb := hcode ▸ mem_append_right body mem_cons_self
  exact hb (hwf.unique b bb i hi i ht rfl).1

/-- What leads to a block with one predecessor is the terminator of this predecessor. -/
theorem eq_terminator_of_mem (hwf : h.WellFormed) {c : ℕ} (hi : i ∈ h.code b)
    (hc : c ∈ i.targets) (hpreds : h.predecessors c = [bb]) :
    b = bb ∧ h.getTerminator b = some i := by
  obtain ⟨ht, body, hcode⟩ := hwf.exists_body hi hc
  exact ⟨mem_singleton.1 (hpreds ▸ hwf.mem_predecessors hi hc), getTerminator_eq hcode ht⟩

section

variable (hwf : h.WellFormed) (hbb : bb ∈ h.blocks) (hcode : h.code bb = body ++ [t])
  (ht : t.kind.isTerminator = true)
include hwf hbb hcode ht

theorem edited_pushNew {kind : Kind} (hkind : kind.isTerminator = true)
    {operands : List Operand} (hops : (∃ b, ∃ j ∈ h.code b, j ≠ t ∧ j.operands = operands) ∨
      ∃ b ∈ h.blocks, operands = [.block b]) :
    Edited h ((h.remove bb t).pushNew bb kind operands) bb body t [⟨h.next, kind, operands⟩]
      none := by
  obtain ⟨hblocks, hnext, hcode'⟩ := remove_terminator hcode ht (hwf.nodup_code bb)
  obtain ⟨hblocks₂, hnext₂, hcode₂⟩ := pushNew_eq (h.remove bb t) bb kind operands
  rw [hcode', hnext, update_self, update_idem] at hcode₂
  have hbb' : ((h.remove bb t).pushNew bb kind operands).code bb =
      body ++ [⟨h.next, kind, operands⟩] := by rw [hcode₂, update_self]
  refine ⟨hbb, hcode, nofun, hbb', nofun, fun b hb _ ↦ ?_, hblocks₂.trans hblocks, ?_, ?_,
    nodup_singleton _, ⟨[], _, rfl, hkind, nofun⟩, ?_, ?_, nofun, nofun, fun _ _ _ _ ↦ nofun, ?_⟩
  · rw [hcode₂, update_of_ne hb]
  · rw [hnext₂, hnext]
    exact Nat.le_succ _
  · intro i hi
    obtain rfl := mem_singleton.1 hi
    rw [hnext₂, hnext]
    exact ⟨Nat.le_refl _, Nat.lt_succ_self _⟩
  · intro i hi
    obtain rfl := mem_singleton.1 hi
    rw [hblocks₂, hblocks]
    exact hops
  · intro i hi hfalse
    obtain rfl := mem_singleton.1 hi
    cases hkind.symm.trans hfalse
  · -- The links of the old terminator have gone, those of the new one have come.
    have hd := LinkedBy.remove_terminator hwf.linked hcode ht
    refine (hd.pushNew kind operands).congr fun a c ↦ ?_
    by_cases ha : a = bb
    · subst ha
      rw [slots_eq hcode ht, slots_eq hbb' hkind]
      simp only [if_true, hkind, and_self, Nat.sub_self, Nat.zero_add]
      rfl
    · simp only [ha, if_false, false_and, Nat.sub_zero, Nat.add_zero]
      exact (slots_congr (by rw [hcode₂, update_of_ne ha])).symm

theorem edited_mergeBack (htargets : t.targets = [nextBB])
    (hpreds : h.predecessors nextBB = [bb]) (hne : nextBB ≠ bb) (hmem : nextBB ∈ h.blocks) :
    ∃ h', ((h.remove bb t).mergeBack bb nextBB).erase nextBB = some h' ∧
      Edited h h' bb body t (clones h.next (h.code nextBB)) (some nextBB) := by
  obtain ⟨body', t', hcode', ht', hbody'⟩ := hwf.terminated nextBB hmem
  obtain ⟨hblocks₁, hnext₁, hcode₁⟩ := remove_terminator hcode ht (hwf.nodup_code bb)
  have hd₁ := LinkedBy.remove_terminator hwf.linked hcode ht
  have hnext_code : (h.remove bb t).code nextBB = body' ++ [t'] := by
    rw [hcode₁, update_of_ne hne, hcode']
  obtain ⟨hblocks₂, hnext₂, hcode₂⟩ :=
    mergeBack_eq (h := h.remove bb t) (b := bb) ((h.remove bb t).code nextBB)
  have hd₂ := hd₁.mergeBack (b := bb) hbody' ht'
  rw [← hnext_code] at hd₂
  change ((h.remove bb t).mergeBack bb nextBB).LinkedBy _ at hd₂
  change ((h.remove bb t).mergeBack bb nextBB).blocks = _ at hblocks₂
  change ((h.remove bb t).mergeBack bb nextBB).next = _ at hnext₂
  change ((h.remove bb t).mergeBack bb nextBB).code = _ at hcode₂
  rw [hcode₁, hnext₁, update_self, update_idem, update_of_ne hne] at hcode₂
  have hcount (a : ℕ) : h.slots a nextBB = [bb].count a := by rw [← (hwf.linked a nextBB).2, hpreds]
  have hself : t'.targets.count nextBB = 0 := by
    rw [← slots_eq hcode' ht', hcount, count_singleton, if_neg (by simpa using hne.symm)]
  have hT : ((h.remove bb t).mergeBack bb nextBB).code nextBB = body' ++ [t'] := by
    rw [hcode₂, update_of_ne hne, hcode']
  have hnodup : (((h.remove bb t).mergeBack bb nextBB).code nextBB).Nodup := by
    rw [hT, ← hcode']
    exact hwf.nodup_code nextBB
  have hzero (a : ℕ) : (h.slots a nextBB - if a = bb then t.targets.count nextBB else 0) +
      (if a = bb then t'.targets.count nextBB else 0) =
        if a = nextBB then t'.targets.count nextBB else 0 := by
    rw [hcount, htargets, hself, ite_self, ite_self, add_zero]
    by_cases ha : a = bb
    · rw [if_pos ha, ha, count_singleton_self, count_singleton_self]
    · rw [if_neg ha, count_singleton, if_neg (by simpa using Ne.symm ha)]
  have hout (c : ℕ) : (h.slots nextBB c - if nextBB = bb then t.targets.count c else 0) +
      (if nextBB = bb then t'.targets.count c else 0) = t'.targets.count c := by
    rw [if_neg hne, if_neg hne, slots_eq hcode' ht']
    rfl
  obtain ⟨h', herase, hblocks₃, hnext₃, hcode₃, hd₃⟩ := erase_eq hT ht' hnodup hd₂ hzero hout
  rw [hcode₂] at hcode₃
  have hbb' : h'.code bb = body ++ clones h.next (h.code nextBB) := by
    rw [hcode₃, update_of_ne hne.symm, update_self]
  have hgone : h'.code nextBB = [] := by rw [hcode₃, update_self]
  have hrest (b : ℕ) (hb : b ≠ bb) (hb' : b ≠ nextBB) : h'.code b = h.code b := by
    rw [hcode₃, update_of_ne hb', update_of_ne hb]
  have hnext : h'.next = h.next + (h.code nextBB).length := by
    rw [hnext₃, hnext₂, hnext₁, hnext_code, hcode']
  have hclones : clones h.next (h.code nextBB) =
      clones h.next body' ++ [{ t' with id := h.next + body'.length }] := by
    rw [hcode', clones_concat]
  refine ⟨h', herase, hbb, hcode, ?_, hbb', ?_, ?_, ?_, ?_, ?_, nodup_clones _ _, ?_, ?_, ?_, ?_, ?_,
    ?_, ?_⟩
  · intro hmem
    exact hne (mem_some_iff.1 hmem)
  · intro b hb
    obtain rfl := mem_some_iff.1 hb
    exact hgone
  · intro b hb hb'
    exact hrest b hb fun heq ↦ hb' (heq ▸ rfl)
  · rw [hblocks₃, hblocks₂, hblocks₁]
    rfl
  · rw [hnext]
    exact Nat.le_add_right _ _
  · intro i hi
    rw [hnext]
    exact ⟨(mem_clones hi).1, (mem_clones hi).2.1⟩
  · refine ⟨_, _, hclones, ht', fun i hi ↦ ?_⟩
    obtain ⟨-, -, j, hj, hkind, -⟩ := mem_clones hi
    rw [hkind]
    exact hbody' j hj
  · intro i hi
    obtain ⟨-, -, j, hj, -, hops⟩ := mem_clones hi
    exact Or.inl ⟨nextBB, j, hj, ne_of_mem hwf hcode hj hne, hops.symm⟩
  · intro i hi hkind
    obtain ⟨-, -, j, hj, hkind', hops⟩ := mem_clones hi
    rw [hkind'] at hkind
    rw [targets, hops]
    exact hwf.targets_eq_nil nextBB j hj hkind
  · intro b hb
    obtain rfl := mem_some_iff.1 hb
    exact hmem
  · intro b hb j hj
    obtain rfl := mem_some_iff.1 hb
    exact exists_mem_clones h.next hj
  · intro b i hi hit c hc hblock
    obtain rfl := mem_some_iff.1 hc
    obtain ⟨rfl, hi⟩ := eq_terminator_of_mem hwf hi (mem_targets.2 hblock) hpreds
    exact hit (some.inj (hi.symm.trans (getTerminator_eq hcode ht)))
  · refine hd₃.congr fun a c ↦ ?_
    by_cases ha : a = nextBB
    · rw [if_pos ha, ha, slots_of_nil hgone]
    rw [if_neg ha]
    show h.slots a c - _ + _ = _
    by_cases ha' : a = bb
    · rw [hclones, ← append_assoc] at hbb'
      rw [if_pos ha', if_pos ha', ha', slots_eq hcode ht, Nat.sub_self, Nat.zero_add,
        slots_eq hbb' ht']
      rfl
    · rw [if_neg ha', if_neg ha', slots_congr (hrest a ha' ha)]
      rfl

end

end

/-! ### Operands -/

/-- An instruction other than `t` refers to the instruction `id`. -/
def Handler.Uses (h : Handler) (t : Instr) (id : ℕ) : Prop :=
  ∃ b, ∃ i ∈ h.code b, i ≠ t ∧ .instr id ∈ i.operands

/-- The instruction `id` goes: it is the terminator `t` or in the block that goes. -/
def Handler.Deletes (h : Handler) (t : Instr) (gone : Option ℕ) (id : ℕ) : Prop :=
  id = t.id ∨ ∃ b ∈ gone, ∃ j ∈ h.code b, j.id = id

namespace Edited

variable {h h' : Handler} {bb : ℕ} {body new : List Instr} {t : Instr} {gone : Option ℕ}
  (hwf : h.WellFormed) (hedit : Edited h h' bb body t new gone)

include hedit in
theorem mem_t : t ∈ h.code bb := by
  rw [hedit.code_eq]
  exact mem_append_right _ mem_cons_self

include hwf hedit

variable {b : ℕ}

theorem mem_blocks : b ∈ h'.blocks ↔ b ∈ h.blocks ∧ b ∉ gone := by
  rw [hedit.blocks_eq]
  rcases gone with - | c
  · simp
  · show b ∈ h.blocks.erase c ↔ _
    rw [hwf.nodup.mem_erase_iff, and_comm, mem_some_iff]
    exact and_congr_right fun _ ↦ ne_comm

variable {i : Instr}

theorem mem_body : i ∈ body ↔ i ∈ h.code bb ∧ i ≠ t := by
  have hnodup := hwf.nodup_code bb
  rw [hedit.code_eq, nodup_append] at hnodup
  rw [hedit.code_eq, mem_append, mem_singleton]
  constructor
  · exact fun hi ↦ ⟨Or.inl hi, hnodup.2.2 i hi t mem_cons_self⟩
  · rintro ⟨hi | hi, hne⟩
    · exact hi
    · exact (hne hi).elim

theorem mem_code : i ∈ h'.code b ↔ (b ∉ gone ∧ i ∈ h.code b ∧ i ≠ t) ∨ (b = bb ∧ i ∈ new) := by
  by_cases hgone : b ∈ gone
  · rw [hedit.code_gone b hgone]
    refine iff_of_false not_mem_nil ?_
    rintro (⟨hb, -⟩ | ⟨rfl, -⟩)
    · exact hb hgone
    · exact hedit.ne_gone hgone
  · by_cases hb : b = bb
    · subst hb
      rw [hedit.code_bb, mem_append, mem_body hwf hedit]
      simp [hgone]
    · rw [hedit.code_of_ne b hb hgone]
      refine ⟨fun hi ↦ Or.inl ⟨hgone, hi, ne_of_mem hwf hedit.code_eq hi hb⟩, ?_⟩
      rintro (⟨-, hi, -⟩ | ⟨rfl, -⟩)
      · exact hi
      · exact (hb rfl).elim

variable {id : ℕ}

theorem lt_of_deletes (hdel : h.Deletes t gone id) : id < h.next := by
  rcases hdel with rfl | ⟨b, -, j, hj, rfl⟩
  · exact hwf.fresh bb t (mem_t hedit)
  · exact hwf.fresh b j hj

theorem not_contains_of_deletes (hdel : h.Deletes t gone id) : ¬h'.Contains id := by
  rintro ⟨b, -, i, hi, rfl⟩
  rcases (mem_code hwf hedit).1 hi with ⟨hb, hi, hne⟩ | ⟨-, hi⟩
  · rcases hdel with hid | ⟨c, hc, j, hj, hid⟩
    · exact hne (hwf.unique b bb i hi t (mem_t hedit) hid).2
    · obtain ⟨rfl, -⟩ := hwf.unique b c i hi j hj hid.symm
      exact hb hc
  · exact lt_irrefl _
      ((lt_of_deletes hwf hedit hdel).trans_le (hedit.fresh i hi).1)

theorem exists_of_uses (huse : h.Uses t id) :
    ∃ b ∈ h'.blocks, ∃ i ∈ h'.code b, .instr id ∈ i.operands := by
  obtain ⟨b, i, hi, hne, hop⟩ := huse
  have hblocks : ∀ {b i}, i ∈ h.code b → b ∈ h.blocks := by
    intro b i hi
    by_contra hb
    rw [hwf.code_eq_nil b hb] at hi
    cases hi
  by_cases hgone : b ∈ gone
  · obtain ⟨i', hi', hops⟩ := hedit.gone_operands b hgone i hi
    exact ⟨bb, (mem_blocks hwf hedit).2 ⟨hedit.mem, hedit.ne_gone⟩, i',
      (mem_code hwf hedit).2 (Or.inr ⟨rfl, hi'⟩), hops ▸ hop⟩
  · exact ⟨b, (mem_blocks hwf hedit).2 ⟨hblocks hi, hgone⟩, i,
      (mem_code hwf hedit).2 (Or.inl ⟨hgone, hi, hne⟩), hop⟩

/-- **All operands are in the handler afterwards if and only if nothing that stays refers to
something that goes.** -/
theorem refers_iff : (∀ b ∈ h'.blocks, ∀ i ∈ h'.code b, ∀ o ∈ i.operands, h'.Refers o) ↔
    ∀ id, h.Deletes t gone id → ¬h.Uses t id := by
  constructor
  · intro hrefers id hdel huse
    obtain ⟨b, hb, i, hi, hop⟩ := exists_of_uses hwf hedit huse
    exact not_contains_of_deletes hwf hedit hdel (hrefers b hb i hi _ hop)
  · intro hsafe b _ i hi o ho
    -- The operands of an instruction that stays are still there.
    have hstays : ∀ {b i}, i ∈ h.code b → i ≠ t → ∀ o ∈ i.operands, h'.Refers o := by
      intro b i hi hne o ho
      have href := hwf.refers b i hi o ho
      cases o with
      | instr id =>
        obtain ⟨c, hc, j, hj, rfl⟩ := href
        have hdel : ¬h.Deletes t gone j.id := fun hdel ↦ hsafe _ hdel ⟨b, i, hi, hne, ho⟩
        have hgone : c ∉ gone := fun hgone ↦ hdel (Or.inr ⟨c, hgone, j, hj, rfl⟩)
        exact ⟨c, (mem_blocks hwf hedit).2 ⟨hc, hgone⟩, j,
          (mem_code hwf hedit).2 (Or.inl ⟨hgone, hj, fun heq ↦ hdel (Or.inl (heq ▸ rfl))⟩), rfl⟩
      | block c =>
        exact (mem_blocks hwf hedit).2 ⟨href, fun hgone ↦ hedit.gone_targets b i hi hne c hgone ho⟩
      | _ => trivial
    rcases (mem_code hwf hedit).1 hi with ⟨-, hi, hne⟩ | ⟨-, hi⟩
    · exact hstays hi hne o ho
    · rcases hedit.operands i hi with ⟨c, j, hj, hne, hops⟩ | ⟨c, hc, hops⟩
      · exact hstays hj hne o (hops ▸ ho)
      · rw [hops] at ho
        obtain rfl := mem_singleton.1 ho
        exact hc

/-- **The handler is well formed again.** -/
theorem wellFormed (hsafe : ∀ id, h.Deletes t gone id → ¬h.Uses t id) : h'.WellFormed := by
  obtain ⟨nb, nt, hnew, hnt, hnb⟩ := hedit.terminated
  have hbody : ∀ i ∈ body, i.kind.isTerminator = false := by
    obtain ⟨body', t', hcode, -, hbody'⟩ := hwf.terminated bb hedit.mem
    obtain ⟨rfl, -⟩ := append_inj' (hedit.code_eq.symm.trans hcode) rfl
    exact hbody'
  have hlt : ∀ {b i}, i ∈ h'.code b → i.id < h'.next := by
    intro b i hi
    rcases (mem_code hwf hedit).1 hi with ⟨-, hi, -⟩ | ⟨-, hi⟩
    · exact (hwf.fresh b i hi).trans_le hedit.next_le
    · exact (hedit.fresh i hi).2
  have hempty : ∀ b ∉ h'.blocks, h'.code b = [] := by
    intro b hb
    by_cases hgone : b ∈ gone
    · exact hedit.code_gone b hgone
    · have hb' : b ∉ h.blocks := fun hmem ↦ hb ((mem_blocks hwf hedit).2 ⟨hmem, hgone⟩)
      have hne : b ≠ bb := fun heq ↦ hb' (heq ▸ hedit.mem)
      rw [hedit.code_of_ne b hne hgone, hwf.code_eq_nil b hb']
  have hnew_of_id : ∀ {i i'}, i ∈ new → i' ∈ new → i.id = i'.id → i = i' := fun hi hi' heq ↦
    inj_on_of_nodup_map hedit.nodup hi hi' heq
  refine ⟨?_, ?_, hempty, ?_, ?_, ?_, fun _ _ hi ↦ hlt hi, ?_, ?_, hedit.linked⟩
  · rw [hedit.blocks_eq]
    rcases gone with - | c
    · exact hwf.nodup
    · exact hwf.nodup.erase c
  · exact ne_nil_of_mem ((mem_blocks hwf hedit).2 ⟨hedit.mem, hedit.ne_gone⟩)
  · intro b hb
    obtain ⟨hb, hgone⟩ := (mem_blocks hwf hedit).1 hb
    by_cases hbb : b = bb
    · subst hbb
      refine ⟨body ++ nb, nt, by rw [hedit.code_bb, hnew, append_assoc], hnt, fun i hi ↦ ?_⟩
      rcases mem_append.1 hi with hi | hi
      · exact hbody i hi
      · exact hnb i hi
    · rw [hedit.code_of_ne b hbb hgone]
      exact hwf.terminated b hb
  · intro b b' i hi i' hi' heq
    rcases (mem_code hwf hedit).1 hi with ⟨-, hold, -⟩ | ⟨hb, hnew⟩
    · rcases (mem_code hwf hedit).1 hi' with ⟨-, hold', -⟩ | ⟨-, hnew'⟩
      · exact hwf.unique b b' i hold i' hold' heq
      · have := hwf.fresh b i hold
        have := (hedit.fresh i' hnew').1
        omega
    · rcases (mem_code hwf hedit).1 hi' with ⟨-, hold', -⟩ | ⟨hb', hnew'⟩
      · have := hwf.fresh b' i' hold'
        have := (hedit.fresh i hnew).1
        omega
      · exact ⟨hb.trans hb'.symm, hnew_of_id hnew hnew' heq⟩
  · intro b
    by_cases hgone : b ∈ gone
    · rw [hedit.code_gone b hgone]
      exact nodup_nil
    by_cases hbb : b = bb
    · subst hbb
      have hnodup := hwf.nodup_code b
      rw [hedit.code_eq, nodup_append] at hnodup
      rw [hedit.code_bb, nodup_append]
      refine ⟨hnodup.1, hedit.nodup.of_map, fun i hi i' hi' heq ↦ ?_⟩
      have := hwf.fresh b i ((mem_body hwf hedit).1 hi).1
      have := (hedit.fresh i' hi').1
      rw [← heq] at this
      omega
    · rw [hedit.code_of_ne b hbb hgone]
      exact hwf.nodup_code b
  · intro b i hi
    by_cases hb : b ∈ h'.blocks
    · exact (refers_iff hwf hedit).2 hsafe b hb i hi
    · rw [hempty b hb] at hi
      cases hi
  · intro b i hi hkind
    rcases (mem_code hwf hedit).1 hi with ⟨-, hi, -⟩ | ⟨-, hi⟩
    · exact hwf.targets_eq_nil b i hi hkind
    · exact hedit.targets_eq_nil i hi hkind

/-! ### Execution -/

section Same

variable {D : Type} {M : Meaning D} {oracle : List (Call D) → D}

/-- Code before and after, with frames that agree: of a block that stays or is copied, or of the
changed block. -/
def Related (h : Handler) (bb : ℕ) (body : List Instr) (t : Instr) (new : List Instr)
    (p p' : List Instr × Frame D) : Prop :=
  p.2.Agree (h.Uses t) p'.2 ∧
    ((∃ b ∈ h.blocks, b ≠ bb ∧ p.1 <:+ h.code b ∧ p.1.Forall₂ (Instr.Alike (h.Uses t)) p'.1) ∨
      ∃ rest, rest <:+ body ∧ p.1 = rest ++ [t] ∧ p'.1 = rest ++ new)

variable {b : ℕ} {i : Instr}

omit hwf hedit in
theorem alike_refl (hi : i ∈ h.code b) (hne : i ≠ t) : i.Alike (h.Uses t) i :=
  ⟨rfl, rfl, fun _ hop ↦ ⟨b, i, hi, hne, hop⟩, fun _ ↦ Or.inl rfl⟩

variable {s s' : Frame D}

theorem related_block (hb : b ∈ h.blocks) (hgone : b ∉ gone) (hs : s.Agree (h.Uses t) s') :
    Related h bb body t new (h.code b, s) (h'.code b, s') := by
  refine ⟨hs, ?_⟩
  by_cases hbb : b = bb
  · subst hbb
    exact Or.inr ⟨body, suffix_refl body, hedit.code_eq, hedit.code_bb⟩
  · refine Or.inl ⟨b, hb, hbb, suffix_refl _, ?_⟩
    rw [hedit.code_of_ne b hbb hgone]
    exact forall₂_same.2 fun i hi ↦ alike_refl hi (ne_of_mem hwf hedit.code_eq hi hbb)

variable {o : Option Operand}

theorem related_jump
    (ho : ∀ b, o = some (.block b) → b ∈ h.blocks ∧ b ∉ gone) (hs : s.Agree (h.Uses t) s') :
    (h.jump (M.interp oracle) [] s o = .error .lost ∧ h'.jump (M.interp oracle) [] s' o = .error .lost) ∨
      ∃ p p', h.jump (M.interp oracle) [] s o = .ok ([], p) ∧
        h'.jump (M.interp oracle) [] s' o = .ok ([], p') ∧ Related h bb body t new p p' := by
  rcases o with - | o
  · exact Or.inl ⟨rfl, rfl⟩
  cases o with
  | block b =>
    obtain ⟨hb, hgone⟩ := ho b rfl
    exact Or.inr ⟨_, _, if_pos hb, if_pos ((mem_blocks hwf hedit).2 ⟨hb, hgone⟩),
      related_block hwf hedit hb hgone hs⟩
  | _ => exact Or.inl ⟨rfl, rfl⟩

/-- Related states go on to related states. -/
abbrev Follows (h h' : Handler) (bb : ℕ) (body : List Instr) (t : Instr) (new : List Instr)
    (M : Meaning D) (oracle : List (Call D) → D) : List Instr × Frame D → List Instr × Frame D → Prop :=
  Machine.Matches (h.machine (M.interp oracle)) (h'.machine (M.interp oracle))
    (Related h bb body t new) fun p ↦ if p.1 = [t] then 1 else 0

theorem follows_jump {p p' : List Instr × Frame D}
    (hp : h.step (M.interp oracle) p = h.jump (M.interp oracle) [] s o)
    (hp' : h'.step (M.interp oracle) p' = h'.jump (M.interp oracle) [] s' o)
    (ho : ∀ b, o = some (.block b) → b ∈ h.blocks ∧ b ∉ gone) (hs : s.Agree (h.Uses t) s') :
    Follows h h' bb body t new M oracle p p' := by
  have hjump : (h.jump (M.interp oracle) [] s o = .error .lost ∧
      h'.jump (M.interp oracle) [] s' o = .error .lost) ∨
      ∃ p p', h.jump (M.interp oracle) [] s o = .ok ([], p) ∧
        h'.jump (M.interp oracle) [] s' o = .ok ([], p') ∧ Related h bb body t new p p' :=
    related_jump hwf hedit ho hs
  rcases hjump with ⟨hlost, hlost'⟩ | ⟨q, q', hok, hok', hR⟩
  · exact .ends .lost (hp.trans hlost) (hp'.trans hlost')
  · exact .steps [] q q' (hp.trans hok) (hp'.trans hok') hR

variable {i' : Instr} {is is' : List Instr}

omit hwf hedit in
theorem follows_perform (hp : h.step (M.interp oracle) (i :: is, s) =
      (M.perform oracle i s).map fun r ↦ (r.1, (is, r.2)))
    (hp' : h'.step (M.interp oracle) (i' :: is', s') =
      (M.perform oracle i' s').map fun r ↦ (r.1, (is', r.2)))
    (hi : i.Alike (h.Uses t) i') (hkind : i.kind.isTerminator = false)
    (hs : s.Agree (h.Uses t) s')
    (hrest : ∀ {r r' : Frame D}, r.Agree (h.Uses t) r' →
      Related h bb body t new (is, r) (is', r')) :
    Follows h h' bb body t new M oracle (i :: is, s) (i' :: is', s') := by
  have hperf : Frame.Matches (h.Uses t) (M.perform oracle i s) (M.perform oracle i' s') :=
    hi.perform hkind hs
  rcases hperf with ⟨e, he, he'⟩ | ⟨es, r, r', hr, hr', hR⟩
  · exact .ends e (hp.trans (by rw [he]; rfl)) (hp'.trans (by rw [he']; rfl))
  · exact .steps es _ _ (hp.trans (by rw [hr]; rfl)) (hp'.trans (by rw [hr']; rfl)) (hrest hR)

theorem follows_alike (hi : i.Alike (h.Uses t) i') (hs : s.Agree (h.Uses t) s')
    (htargets : ∀ b, .block b ∈ i.operands → b ∈ h.blocks ∧ b ∉ gone)
    (hrest : i.kind.isTerminator = false → ∀ {r r' : Frame D}, r.Agree (h.Uses t) r' →
      Related h bb body t new (is, r) (is', r')) :
    Follows h h' bb body t new M oracle (i :: is, s) (i' :: is', s') := by
  have hjump (n : ℕ) (b : ℕ) (hb : i.successor n = some (.block b)) : b ∈ h.blocks ∧ b ∉ gone :=
    htargets b (mem_of_successor hb)
  obtain ⟨id, kind, operands⟩ := i
  obtain ⟨id', kind', operands'⟩ := i'
  obtain ⟨rfl, rfl, huses, hid⟩ := hi
  have hcond : ∃ n, (M.interp oracle).decide kind (condition ⟨id, kind, operands⟩) s = ([], n, s) ∧
      (M.interp oracle).decide kind (condition ⟨id', kind, operands⟩) s' = ([], n, s') :=
    Meaning.decide_eq hs kind fun id hid ↦ huses id (mem_of_mem_filter hid)
  obtain ⟨n, hn, hn'⟩ := hcond
  cases kind with
  | ret =>
    refine .ends (.returned (operands.map (M.eval s.env))) rfl ?_
    show Except.error (Result.returned (operands.map (M.eval s'.env))) = _
    rw [Meaning.map_eval_congr hs huses]
  | br => exact follows_jump hwf hedit rfl rfl (hjump 0) hs
  | condBr | matchOn op =>
    refine follows_jump hwf hedit ?_ ?_ (hjump n) hs
    · show h.jump _ (decide _ _ _ _).1 (decide _ _ _ _).2.2
        (successor _ (decide _ _ _ _).2.1) = _
      rw [hn]
    · show h'.jump _ (decide _ _ _ _).1 (decide _ _ _ _).2.2
        (successor _ (decide _ _ _ _).2.1) = _
      rw [hn']
      rfl
  | _ => exact follows_perform rfl rfl ⟨rfl, rfl, huses, hid⟩ rfl hs (hrest rfl)

section

variable
  (hnew : ∀ {s s' : Frame D}, s.Agree (h.Uses t) s' → Follows h h' bb body t new M oracle ([t], s) (new, s'))
include hnew

/-- Related states go on to related states, if the new instructions go on from where the terminator
does. -/
theorem follows_related (p p' : List Instr × Frame D) (hp : Related h bb body t new p p') :
    Follows h h' bb body t new M oracle p p' := by
  obtain ⟨c, s⟩ := p
  obtain ⟨c', s'⟩ := p'
  obtain ⟨hs, ⟨b, hb, hbb, hsuffix, hc⟩ | ⟨rest, hsuffix, hc, hc'⟩⟩ := hp
  · cases hc with
    | nil => exact .ends .lost rfl rfl
    | @cons i i' is is' hi his =>
      have hmem : i ∈ h.code b := hsuffix.subset mem_cons_self
      have hne : i ≠ t := ne_of_mem hwf hedit.code_eq hmem hbb
      refine follows_alike hwf hedit hi hs (fun c hc ↦ ?_) fun _ r r' hr ↦ ?_
      · exact ⟨hwf.refers b i hmem (.block c) hc,
          fun hgone ↦ hedit.gone_targets b i hmem hne c hgone hc⟩
      · exact ⟨hr, Or.inl ⟨b, hb, hbb, (suffix_cons i is).trans hsuffix, his⟩⟩
  · obtain rfl : c = rest ++ [t] := hc
    obtain rfl : c' = rest ++ new := hc'
    rcases rest with - | ⟨i, rest⟩
    · exact hnew hs
    · have hmem : i ∈ body := hsuffix.subset mem_cons_self
      obtain ⟨hcode, hne⟩ := (mem_body hwf hedit).1 hmem
      refine follows_alike hwf hedit (alike_refl hcode hne) hs (fun c hc ↦ ?_) fun _ r r' hr ↦ ?_
      · exact ⟨hwf.refers bb i hcode (.block c) hc,
          fun hgone ↦ hedit.gone_targets bb i hcode hne c hgone hc⟩
      · exact ⟨hr, Or.inr ⟨rest, (suffix_cons i rest).trans hsuffix, rfl, rfl⟩⟩

/-- **A block that stays does the same as before**, if the new instructions go on from where the
terminator does. -/
theorem same {b : ℕ} (hb : b ∈ h'.blocks) (s : Frame D) :
    Machine.Same (h.machine (M.interp oracle)) (h'.machine (M.interp oracle)) (h.code b, s)
      (h'.code b, s) := by
  obtain ⟨hb, hgone⟩ := (mem_blocks hwf hedit).1 hb
  exact Machine.same_of_matches (follows_related hwf hedit hnew)
    (related_block hwf hedit hb hgone ⟨rfl, fun _ _ ↦ rfl⟩)

end

end Same

end Edited

end Xzero.Flow.Ir
