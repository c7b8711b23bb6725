import Xzero.Flow.Ir.Execution

/-!
# Empty block elimination

`xzero-flow/transform/EmptyBlockElimination.cc`. Blocks that just branch are taken out of the
handler, after their predecessors were made to branch to where they branch to.

The loop over the predecessors takes away the predecessors it goes through, so it is defined only
where there are none. An entry block that just branches is made the entry block, not the one it
branches to, and is then erased: the handler begins with the block that comes next in the list.
**What is left of the pass is the removal of blocks that nothing leads to**
(`EmptyBlockElimination.eliminates_iff`).
-/

namespace Xzero.Flow.Ir

open Handler List Option

namespace EmptyBlockElimination

/-- The block has one instruction, and this branches to another block. -/
def newSuccessor (h : Handler) (bb : ℕ) : Option ℕ :=
  match h.code bb with
  | [br] => match br.kind, br.operands with
    | .br, [.block targetBlock] => some targetBlock
    | _, _ => none
  | _ => none

/-- The loop over the blocks, with those that are to be eliminated. -/
def redirect (h : Handler) : List ℕ → Option (Handler × List ℕ)
  | [] => some (h, [])
  | bb :: bbs =>
    match newSuccessor h bb with
    | none => redirect h bbs
    | some successor =>
      if h.entry = some bb then some (h.setEntryBlock bb, [bb])
      else do
        let h ← h.replaceInPredecessors bb successor (h.predecessors bb)
        let (h, eliminated) ← redirect h bbs
        some (h, bb :: eliminated)

/-- `EmptyBlockElimination::run`. The result says whether there was something to eliminate. -/
def run (h : Handler) : Option (Handler × Bool) := do
  let (h, eliminated) ← redirect h h.blocks
  let h ← eliminated.foldlM erase h
  some (h, !eliminated.isEmpty)

/-! ### What the pass should do -/

/-- There is a first block, and all branches lead to blocks of the handler. -/
def Complete (h : Handler) : Prop :=
  h.blocks ≠ [] ∧ ∀ b ∈ h.blocks, ∀ i ∈ h.code b, ∀ c, .block c ∈ i.operands → c ∈ h.blocks

/-- The pass is defined, and its result is complete and goes through the same instructions. -/
def Eliminates (h : Handler) : Prop :=
  ∃ h' changed, run h = some (h', changed) ∧ Complete h' ∧ SameRuns h h'

/-- Where the pass does what it should. If the handler begins with an empty block, only this block
leads to it, and the next one in the list does the same; otherwise, nothing leads to an empty
block. -/
structure Safe (h : Handler) : Prop where
  entry : ∀ e, h.entry = some e → newSuccessor h e ≠ none →
    (∀ p ∈ h.predecessors e, p = e) ∧ ∃ b, h.blocks[1]? = some b ∧ SameRunsFrom h e h b
  others : ∀ e, h.entry = some e → newSuccessor h e = none →
    ∀ bb ∈ h.blocks, newSuccessor h bb ≠ none → h.predecessors bb = []

section

variable {h h' : Handler} {bb : ℕ}

theorem exists_code_of_newSuccessor (hbb : newSuccessor h bb ≠ none) :
    ∃ t, h.code bb = [t] ∧ t.kind.isTerminator = true := by
  rw [newSuccessor] at hbb
  split at hbb
  · next br hcode =>
    refine ⟨br, hcode, ?_⟩
    split at hbb
    · next hkind _ =>
      rw [hkind]
      rfl
    · exact absurd rfl hbb
  · exact absurd rfl hbb

/-! ### The blocks that are eliminated -/

def empties (h : Handler) (bbs : List ℕ) : List ℕ := bbs.filter fun bb ↦ (newSuccessor h bb).isSome

variable {bbs : List ℕ}

theorem mem_empties : bb ∈ empties h bbs ↔ bb ∈ bbs ∧ newSuccessor h bb ≠ none := by
  rw [empties, mem_filter, isSome_iff_ne_none]

theorem empties_of_none (hbb : newSuccessor h bb = none) :
    empties h (bb :: bbs) = empties h bbs := by
  rw [empties, filter_cons_of_neg (by simp [hbb])]
  rfl

theorem empties_of_ne_none (hbb : newSuccessor h bb ≠ none) :
    empties h (bb :: bbs) = bb :: empties h bbs := by
  exact filter_cons_of_pos (isSome_iff_ne_none.2 hbb)

theorem redirect_eq (hwf : h.WellFormed) (bbs : List ℕ) (hentry : ∀ bb ∈ bbs, h.entry ≠ some bb) :
    redirect h bbs = if ∀ bb ∈ empties h bbs, h.predecessors bb = [] then some (h, empties h bbs)
      else none := by
  induction bbs with
  | nil => rfl
  | cons bb bbs ih =>
    have ih := ih fun b hb ↦ hentry b (mem_cons_of_mem bb hb)
    rw [redirect]
    rcases hbb : newSuccessor h bb with - | successor
    · rw [empties_of_none hbb]
      exact ih
    · have hne : newSuccessor h bb ≠ none := by rw [hbb]; exact some_ne_none _
      simp only [if_neg (hentry bb mem_cons_self), empties_of_ne_none hne,
        replaceInPredecessors_eq hwf, forall_mem_cons]
      by_cases hpreds : h.predecessors bb = []
      · rw [if_pos hpreds]
        show (redirect h bbs >>= fun r ↦ some (r.1, bb :: r.2)) = _
        rw [ih]
        simp only [hpreds, true_and]
        split <;> rfl
      · rw [if_neg hpreds, if_neg fun hall ↦ hpreds hall.1]
        rfl

variable {e : ℕ}

theorem entry_of_cons (hblocks : h.blocks = e :: bbs) : h.entry = some e := by
  rw [entry, hblocks, head?_cons]

theorem redirect_entry (hblocks : h.blocks = e :: bbs)
    (he : newSuccessor h e ≠ none) : redirect h h.blocks = some (h, [e]) := by
  obtain ⟨s, hs⟩ := ne_none_iff_exists'.1 he
  have hset : h.setEntryBlock e = h := by
    rw [setEntryBlock, hblocks, erase_cons_head, ← hblocks]
  rw [hblocks, redirect, hs]
  simp only [entry, hblocks, head?_cons, if_true, hset]

/-! ### Erasing blocks -/

theorem foldlM_erase (hnodup : bbs.Nodup) {d : ℕ → ℕ → ℕ} (hd : h.LinkedBy d)
    (hcode : ∀ bb ∈ bbs, ∃ t, h.code bb = [t] ∧ t.kind.isTerminator = true ∧
      ∀ c, d bb c = t.targets.count c)
    (hzero : ∀ bb ∈ bbs, ∀ a, a ≠ bb → d a bb = 0) :
    ∃ h', bbs.foldlM erase h = some h' ∧ h'.blocks = h.blocks.diff bbs ∧
      ∀ b ∉ bbs, h'.code b = h.code b := by
  induction bbs generalizing h d with
  | nil => exact ⟨h, rfl, rfl, fun _ _ ↦ rfl⟩
  | cons bb bbs ih =>
    obtain ⟨hbb, hnodup⟩ := nodup_cons.1 hnodup
    obtain ⟨t, ht, hterm, hout⟩ := hcode bb mem_cons_self
    have hself : ∀ a, d a bb = if a = bb then t.targets.count bb else 0 := by
      intro a
      by_cases ha : a = bb
      · rw [if_pos ha, ha, hout]
      · rw [if_neg ha, hzero bb mem_cons_self a ha]
    have ht₀ : h.code bb = [] ++ [t] := ht
    obtain ⟨h₁, herase, hblocks, -, hcode₁, hd₁⟩ :=
      erase_eq ht₀ hterm (ht ▸ nodup_singleton t) hd hself hout
    have hne : ∀ {b}, b ∈ bbs → b ≠ bb := fun hb heq ↦ hbb (heq ▸ hb)
    obtain ⟨h', hfold, hblocks', hcode'⟩ := ih hnodup hd₁ (fun b hb ↦ by
        obtain ⟨t', ht', hterm', hout'⟩ := hcode b (mem_cons_of_mem bb hb)
        refine ⟨t', ?_, hterm', fun c ↦ (if_neg (hne hb)).trans (hout' c)⟩
        rw [hcode₁, Function.update_of_ne (hne hb), ht'])
      (fun b hb a ha ↦ by
        rw [hzero b (mem_cons_of_mem bb hb) a ha, ite_self])
    refine ⟨h', ?_, ?_, fun b hb ↦ ?_⟩
    · rw [foldlM_cons, herase]
      exact hfold
    · rw [hblocks', hblocks, diff_cons]
    · have hb' : b ≠ bb := fun heq ↦ hb (mem_cons.2 (Or.inl heq))
      rw [hcode' b fun hmem ↦ hb (mem_cons_of_mem bb hmem), hcode₁, Function.update_of_ne hb']

theorem erase_empties (hwf : h.WellFormed) (hnodup : bbs.Nodup)
    (hempty : ∀ bb ∈ bbs, bb ∈ h.blocks ∧ newSuccessor h bb ≠ none)
    (hpreds : ∀ bb ∈ bbs, ∀ p ∈ h.predecessors bb, p = bb) :
    ∃ h', bbs.foldlM erase h = some h' ∧ h'.blocks = h.blocks.diff bbs ∧
      (∀ b ∈ h'.blocks, ∀ i ∈ h'.code b, ∀ c, .block c ∈ i.operands → c ∈ h'.blocks) ∧
      ∀ b ∈ h'.blocks, SameRunsFrom h b h' b := by
  obtain ⟨h', hfold, hblocks, hcode⟩ := foldlM_erase hnodup hwf.linked (fun bb hbb ↦ by
      obtain ⟨t, ht, hterm⟩ := exists_code_of_newSuccessor (hempty bb hbb).2
      have ht₀ : h.code bb = [] ++ [t] := ht
      exact ⟨t, ht, hterm, fun c ↦ slots_eq ht₀ hterm⟩)
    (fun bb hbb a ha ↦ by
      rw [← (hwf.linked a bb).2, count_eq_zero]
      exact fun hmem ↦ ha (hpreds bb hbb a hmem))
  have hmem : ∀ {b}, b ∈ h'.blocks ↔ b ∈ h.blocks ∧ b ∉ bbs := by
    intro b
    rw [hblocks, hwf.nodup.mem_sdiff_iff]
  have hclosed : ∀ b ∈ h'.blocks, ∀ i ∈ h.code b, ∀ c, .block c ∈ i.operands → c ∈ h'.blocks := by
    intro b hb i hi c hc
    refine hmem.2 ⟨hwf.refers b i hi _ hc, fun hcmem ↦ ?_⟩
    have heq := hpreds c hcmem b (hwf.mem_predecessors hi (Instr.mem_targets.2 hc))
    exact (hmem.1 hb).2 (heq ▸ hcmem)
  have hsame : ∀ b ∈ h'.blocks, h'.code b = h.code b := fun b hb ↦ hcode b (hmem.1 hb).2
  refine ⟨h', hfold, hblocks, fun b hb i hi ↦ hclosed b hb i (hsame b hb ▸ hi), fun b hb ↦ ?_⟩
  exact sameRunsFrom_of_closed hsame (fun b hb ↦ (hmem.1 hb).1) hclosed hb

theorem erase_eq_none (hwf : h.WellFormed) (hbb : newSuccessor h bb ≠ none) {p : ℕ}
    (hp : p ∈ h.predecessors bb) (hne : p ≠ bb) : h.erase bb = none := by
  obtain ⟨t, ht, hterm⟩ := exists_code_of_newSuccessor hbb
  let h₁ : Handler := { h with blocks := h.blocks.erase bb }
  have ht₁ : h₁.code bb = [] ++ [t] := ht
  have hd : h₁.LinkedBy h.slots := hwf.linked
  have hcount := (hd.remove_terminator ht₁ hterm p bb).2
  have hpreds : (h₁.remove bb t).predecessors bb ≠ [] := by
    intro hnil
    have hslots : h.slots p bb ≠ 0 := by
      rw [← (hwf.linked p bb).2]
      exact (count_pos_iff.2 hp).ne'
    rw [hnil] at hcount
    simp only [count_nil, if_neg hne, Nat.sub_zero] at hcount
    exact hslots hcount.symm
  have hfound : h₁.getTerminator bb = some t := getTerminator_eq ht₁ hterm
  simp only [erase]
  rw [hfound]
  exact if_neg fun hnil ↦ hpreds hnil.1

/-! ### When the pass does what it should -/

theorem run_eq {eliminated : List ℕ} (hredirect : redirect h h.blocks = some (h, eliminated)) :
    run h = (eliminated.foldlM erase h).map fun h ↦ (h, !eliminated.isEmpty) := by
  rw [run, hredirect]
  show (eliminated.foldlM erase h >>= fun h ↦ some (h, !eliminated.isEmpty)) = _
  rcases eliminated.foldlM erase h with - | h' <;> rfl

theorem eliminates_entry_iff (hwf : h.WellFormed)
    (hblocks : h.blocks = e :: bbs) (he : newSuccessor h e ≠ none) :
    Eliminates h ↔ (∀ p ∈ h.predecessors e, p = e) ∧
      ∃ b, h.blocks[1]? = some b ∧ SameRunsFrom h e h b := by
  have hrun := run_eq (redirect_entry hblocks he)
  have hentry := entry_of_cons hblocks
  have hfold : [e].foldlM erase h = h.erase e := by
    rw [foldlM_cons]
    rcases h.erase e with - | h' <;> rfl
  by_cases hpreds : ∀ p ∈ h.predecessors e, p = e
  · obtain ⟨h', herase, hblocks', hclosed, hsame⟩ := erase_empties hwf (nodup_singleton e)
      (by simpa [hblocks] using he) (by simpa using hpreds)
    have hrest : h'.blocks = bbs := by
      rw [hblocks', hblocks, diff_cons, erase_cons_head, diff_nil]
    rw [herase] at hrun
    rcases bbs with - | ⟨b, bs⟩
    · refine iff_of_false ?_ fun hcond ↦ ?_
      · rintro ⟨h₁, changed, hrun₁, ⟨hne, -⟩, -⟩
        cases hrun.symm.trans hrun₁
        exact hne hrest
      · obtain ⟨-, b, hb, -⟩ := hcond
        rw [hblocks] at hb
        cases hb
    have hruns := sameRuns_iff hentry (entry_of_cons hrest)
    have hb := hsame b (hrest ▸ mem_cons_self)
    constructor
    · rintro ⟨h₁, changed, hrun₁, -, hruns₁⟩
      cases hrun.symm.trans hrun₁
      exact ⟨hpreds, b, by rw [hblocks]; rfl, (hruns.1 hruns₁).trans hb.symm⟩
    · rintro ⟨-, b', hb', hruns'⟩
      rw [hblocks] at hb'
      cases hb'
      exact ⟨h', _, hrun, ⟨hrest ▸ cons_ne_nil b bs, hclosed⟩, hruns.2 (hruns'.trans hb)⟩
  · obtain ⟨p, hp, hne⟩ : ∃ p ∈ h.predecessors e, p ≠ e := by
      simpa only [not_forall, exists_prop] using hpreds
    rw [hfold, erase_eq_none hwf he hp hne] at hrun
    refine ⟨?_, fun hcond ↦ absurd hcond.1 hpreds⟩
    rintro ⟨h₁, changed, hrun₁, -⟩
    cases hrun.symm.trans hrun₁

theorem eliminates_others_iff (hwf : h.WellFormed)
    (hblocks : h.blocks = e :: bbs) (he : newSuccessor h e = none) :
    Eliminates h ↔ ∀ bb ∈ h.blocks, newSuccessor h bb ≠ none → h.predecessors bb = [] := by
  have hentry := entry_of_cons hblocks
  obtain ⟨hebbs, hnodup⟩ := nodup_cons.1 (hblocks ▸ hwf.nodup)
  have hempties : empties h h.blocks = empties h bbs := by rw [hblocks, empties_of_none he]
  have hredirect : redirect h h.blocks = redirect h bbs := by rw [hblocks, redirect, he]
  rw [redirect_eq hwf bbs fun bb hbb heq ↦ hebbs (some.inj (hentry.symm.trans heq) ▸ hbb),
    ← hempties] at hredirect
  simp only [← and_imp, ← mem_empties]
  by_cases hpreds : ∀ bb ∈ empties h h.blocks, h.predecessors bb = []
  · refine ⟨fun _ ↦ hpreds, fun _ ↦ ?_⟩
    rw [if_pos hpreds] at hredirect
    obtain ⟨h', herase, hblocks', hclosed, hsame⟩ := erase_empties hwf (hwf.nodup.filter _)
      (fun bb hbb ↦ mem_empties.1 hbb) (fun bb hbb p hp ↦ by rw [hpreds bb hbb] at hp; cases hp)
    have hrest : h'.blocks = e :: bbs.diff (empties h h.blocks) := by
      rw [hblocks', ← cons_diff_of_not_mem (fun hmem ↦ (mem_empties.1 hmem).2 he), ← hblocks]
      rfl
    have hb := entry_of_cons hrest
    have hrun := run_eq hredirect
    rw [show (empties h h.blocks).foldlM erase h = some h' from herase] at hrun
    refine ⟨h', _, hrun, ⟨hrest ▸ cons_ne_nil _ _, hclosed⟩, (sameRuns_iff hentry hb).2 ?_⟩
    exact hsame e (hrest ▸ mem_cons_self)
  · refine ⟨?_, fun hcond ↦ absurd hcond hpreds⟩
    rintro ⟨h₁, changed, hrun, -⟩
    rw [if_neg hpreds] at hredirect
    rw [run, hredirect] at hrun
    cases hrun

/-- **The pass preserves a handler if and only if nothing leads to the blocks it eliminates**, as
far as these are not the entry block. -/
theorem eliminates_iff (hwf : h.WellFormed) : Eliminates h ↔ Safe h := by
  obtain ⟨e, bbs, hblocks⟩ := exists_cons_of_ne_nil hwf.ne_nil
  have hentry := entry_of_cons hblocks
  have heq : ∀ {e'}, h.entry = some e' → e' = e := fun he' ↦
    some.inj (he'.symm.trans hentry)
  by_cases he : newSuccessor h e = none
  · rw [eliminates_others_iff hwf hblocks he]
    refine ⟨fun hall ↦ ⟨fun e' he' hne ↦ ?_, fun _ _ _ ↦ hall⟩, fun hsafe ↦ hsafe.others e hentry he⟩
    exact absurd (heq he' ▸ he) hne
  · rw [eliminates_entry_iff hwf hblocks he]
    refine ⟨fun hall ↦ ⟨fun e' he' _ ↦ ?_, fun e' he' hnone ↦ ?_⟩, fun hsafe ↦ hsafe.entry e hentry he⟩
    · rw [heq he']
      exact hall
    · exact absurd (heq he' ▸ hnone) he

end

/-- An entry block that branches, and two blocks that return. -/
def branchTo (c : ℕ) : Handler where
  blocks := [0, 1, 2]
  code b := if b = 0 then [⟨0, .br, [.block c]⟩]
    else if b = 1 then [⟨1, .ret, [.const (.boolean true)]⟩]
    else if b = 2 then [⟨2, .ret, [.const (.boolean false)]⟩]
    else []
  predecessors b := if b = c then [0] else []
  successors b := if b = 0 then [c] else []
  next := 3

variable {c : ℕ}

theorem branchTo_outside (hc : c ∈ [1, 2]) : ∀ b ∉ (branchTo c).blocks,
    (branchTo c).code b = [] ∧ (branchTo c).predecessors b = [] ∧ (branchTo c).successors b = [] := by
  intro b hb
  have hbc : b ≠ c := by
    rintro rfl
    exact hb (mem_cons_of_mem 0 hc)
  have hb : b ≠ 0 ∧ b ≠ 1 ∧ b ≠ 2 := by simpa [branchTo] using hb
  simp [branchTo, hb, hbc]

theorem wellFormed_branchTo (hc : c ∈ [1, 2]) : (branchTo c).WellFormed := by
  have hout := branchTo_outside hc
  have hc : c = 1 ∨ c = 2 := by simpa using hc
  rcases hc with rfl | rfl <;> exact wellFormed_of_blocks (by decide) (by decide) hout (by decide)
    (by decide) (by decide) (by decide) (by decide) (by decide)

theorem sameRunsFrom_branchTo (hc : c ∈ [1, 2]) : SameRunsFrom (branchTo c) c (branchTo c) 0 := by
  intro S E R I s
  refine Machine.same_of_silent ?_
  have hmem : c ∈ (branchTo c).blocks := mem_cons_of_mem 0 hc
  exact if_pos hmem

/-- An entry block that branches to the next block can be eliminated. -/
theorem eliminates_branchTo_one : Eliminates (branchTo 1) := by
  refine (eliminates_iff (wellFormed_branchTo (by decide))).2 ⟨fun e he _ ↦ ?_, fun e he hnone ↦ ?_⟩
  · cases he
    exact ⟨nofun, 1, rfl, (sameRunsFrom_branchTo (by decide)).symm⟩
  · cases he
    cases hnone

/-- With an entry block that branches to the last block, the handler returns something else. -/
theorem not_eliminates : ¬∀ h : Handler, h.WellFormed → Eliminates h := by
  intro hall
  have hwf := wellFormed_branchTo (c := 2) (by decide)
  obtain ⟨-, b, hb, hruns⟩ := (eliminates_entry_iff hwf rfl (by decide)).1 (hall _ hwf)
  cases hb
  -- The second block returns true, the last one false.
  let I : Interp Unit Unit (List Operand) :=
    ⟨fun _ s ↦ .ok ([], s), fun _ _ s ↦ ([], 0, s), fun operands _ ↦ operands, []⟩
  have hends := ((sameRunsFrom_branchTo (by decide)).trans hruns _ _ _ I ()).ends []
    [.const (.boolean true)]
  rw [Machine.ends_iff_of_error rfl, Machine.ends_iff_of_error rfl] at hends
  cases (hends.2 ⟨rfl, rfl⟩).2

end EmptyBlockElimination

end Xzero.Flow.Ir
