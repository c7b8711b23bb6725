import Xzero.Flow.Ir.Edits

/-!
# The links of a handler under edits

The edits of a handler keep links in two ways: those of blocks go through the operands of a
terminator, those of instructions look at one operand, whatever the instruction. The two ways agree
as long as blocks are operands of terminators only.

* `Booked` is what edits keep: terminators are last, only they have blocks, and links are where they
  lead (`exits`). Each edit has a lemma, and all of them go through `Booked.recode`.
* **In every run in which no other instruction is given a block, the links are those of the
  terminators** (`linked_of_reach`).
* An instruction that is not a terminator can be given a block; the link then has no slot
  (`not_linked`).
-/

namespace Xzero.Flow.Ir

open Function List Option Instr Handler LinkedBy

/-! ### Code -/

section Code

/-- The blocks an instruction leads to. -/
def Instr.exits (i : Instr) : List ℕ := if i.kind.isTerminator then i.targets else []

/-- The blocks that instructions lead to. -/
def exits (is : List Instr) : List ℕ := is.flatMap Instr.exits

variable {n c : ℕ} {i i' : Instr} {is is₁ is₂ : List Instr}

theorem Instr.exits_of_terminator (hi : i.kind.isTerminator = true) : i.exits = i.targets :=
  if_pos hi

theorem Instr.exits_of_not_terminator (hi : i.kind.isTerminator = false) : i.exits = [] := by
  rw [exits, hi]
  rfl

theorem exits_append : exits (is₁ ++ is₂) = exits is₁ ++ exits is₂ := flatMap_append

theorem exits_cons : exits (i :: is) = i.exits ++ exits is := flatMap_cons

theorem exits_eq_nil (his : ∀ i ∈ is, i.kind.isTerminator = false) : exits is = [] :=
  flatMap_eq_nil_iff.2 fun i hi ↦ exits_of_not_terminator (his i hi)

theorem count_exits_replace : (exits (is₁ ++ i' :: is₂)).count c + i.exits.count c =
    (exits (is₁ ++ i :: is₂)).count c + i'.exits.count c := by
  simp only [exits_append, exits_cons, count_append]
  omega

/-- The code of a block: each instruction is there once, the terminator is the last one, and the
other instructions have no block among their operands. -/
structure Ordered (n : ℕ) (is : List Instr) : Prop where
  nodup : (is.map Instr.id).Nodup
  fresh : ∀ i ∈ is, i.id < n
  /-- Terminators have nothing after them. -/
  last : is.Pairwise fun i _ ↦ i.kind.isTerminator = false
  /-- Other instructions have no blocks. -/
  plain : ∀ i ∈ is, i.Plain

theorem Ordered.nil : Ordered n [] :=
  ⟨nodup_nil, nofun, List.Pairwise.nil, nofun⟩

theorem Ordered.mono {m : ℕ} (his : Ordered n is) (hle : n ≤ m) : Ordered m is :=
  { his with fresh := fun i hi ↦ (his.fresh i hi).trans_le hle }

theorem Ordered.sublist (his : Ordered n is₂) (hsub : is₁.Sublist is₂) : Ordered n is₁ where
  nodup := his.nodup.sublist (hsub.map _)
  fresh i hi := his.fresh i (hsub.subset hi)
  last := his.last.sublist hsub
  plain i hi := his.plain i (hsub.subset hi)

theorem Ordered.concat (his : Ordered n is) (hnone : ∀ i ∈ is, i.kind.isTerminator = false)
    (hid : ∀ j ∈ is, j.id ≠ i.id) (hlt : i.id < n) (hi : i.Plain) : Ordered n (is ++ [i]) where
  nodup := by
    rw [map_append, nodup_append]
    refine ⟨his.nodup, nodup_singleton _, ?_⟩
    rintro a ha b hb rfl
    obtain ⟨j, hj, rfl⟩ := mem_map.1 ha
    exact hid j hj (mem_singleton.1 hb)
  fresh j hj := by
    rcases mem_append.1 hj with hj | hj
    · exact his.fresh j hj
    · rwa [mem_singleton.1 hj]
  last := pairwise_append.2
    ⟨his.last, pairwise_singleton _ _, fun j hj _ _ ↦ hnone j hj⟩
  plain j hj := by
    rcases mem_append.1 hj with hj | hj
    · exact his.plain j hj
    · rwa [mem_singleton.1 hj]

theorem Ordered.replace (his : Ordered n (is₁ ++ i :: is₂)) (hlt : i'.id < n)
    (hid : ∀ j ∈ is₁ ++ is₂, j.id ≠ i'.id)
    (hkind : i'.kind.isTerminator = i.kind.isTerminator) (hi : i'.Plain) :
    Ordered n (is₁ ++ i' :: is₂) := by
  have hmem : ∀ {j}, j ∈ is₁ ++ i' :: is₂ → j = i' ∨ j ∈ is₁ ++ is₂ := by
    intro j hj
    rw [mem_append, mem_cons] at hj
    rw [mem_append]
    tauto
  have hsub : (is₁ ++ is₂).Sublist (is₁ ++ i :: is₂) :=
    (Sublist.refl is₁).append (sublist_cons_self i is₂)
  have hrest := his.sublist hsub
  refine ⟨?_, fun j hj ↦ ?_, ?_, fun j hj ↦ ?_⟩
  · have hnodup : ((i' :: (is₁ ++ is₂)).map Instr.id).Nodup := by
      rw [map_cons, nodup_cons]
      refine ⟨fun hj ↦ ?_, hrest.nodup⟩
      obtain ⟨j, hj, heq⟩ := mem_map.1 hj
      exact hid j hj heq
    exact ((perm_middle.map Instr.id).nodup_iff).2 hnodup
  · rcases hmem hj with rfl | hj
    · exact hlt
    · exact hrest.fresh j hj
  · obtain ⟨h₁, h₂, h₁₂⟩ := pairwise_append.1 his.last
    obtain ⟨hi₂, h₂⟩ := pairwise_cons.1 h₂
    refine pairwise_append.2 ⟨h₁, pairwise_cons.2 ⟨fun j hj ↦ ?_, h₂⟩, fun j hj _ _ ↦ ?_⟩
    · rw [hkind]
      exact hi₂ j hj
    · exact h₁₂ j hj i mem_cons_self
  · rcases hmem hj with rfl | hj
    · exact hi
    · exact hrest.plain j hj

theorem Ordered.front (his : Ordered n (is ++ [i])) : ∀ j ∈ is, j.kind.isTerminator = false :=
  fun j hj ↦ (pairwise_append.1 his.last).2.2 j hj i mem_cons_self

theorem Ordered.of_terminator (ho : Ordered n (is₁ ++ i :: is₂))
    (hi : i.kind.isTerminator = true) : is₂ = [] ∧ ∀ j ∈ is₁, j.kind.isTerminator = false := by
  obtain ⟨-, h₂, h₁₂⟩ := pairwise_append.1 ho.last
  refine ⟨eq_nil_iff_forall_not_mem.2 fun j hj ↦ ?_, fun j hj ↦ h₁₂ j hj i mem_cons_self⟩
  rw [(pairwise_cons.1 h₂).1 j hj] at hi
  cases hi

end Code

namespace Handler

section Slots

variable {h : Handler} {n b c id : ℕ} {i : Instr}

theorem getTerminator_concat {body : List Instr} (hcode : h.code b = body ++ [i])
    (hi : i.kind.isTerminator = false) : h.getTerminator b = none := by
  rw [getTerminator, hcode, getLast?_concat]
  simp [hi]

theorem code_of_getTerminator (ht : h.getTerminator b = some i) :
    i.kind.isTerminator = true ∧ ∃ body, h.code b = body ++ [i] := by
  obtain ⟨hlast, hkind⟩ := filter_eq_some_iff.1 ht
  exact ⟨hkind, getLast?_eq_some_iff.1 hlast⟩

theorem slots_eq_exits (ho : Ordered n (h.code b)) : h.slots b c = (exits (h.code b)).count c := by
  rcases eq_nil_or_concat (h.code b) with hnil | ⟨body, i, hcode⟩
  · rw [slots_of_nil hnil, hnil]
    rfl
  · rw [concat_eq_append] at hcode
    have hbody : exits body = [] := exits_eq_nil (hcode ▸ ho).front
    rw [hcode, exits_append, hbody, exits_cons, exits, flatMap_nil, append_nil, nil_append]
    cases hi : i.kind.isTerminator with
    | true => rw [slots_eq hcode hi, exits_of_terminator hi]
    | false =>
      rw [slots, getTerminator_concat hcode hi, exits_of_not_terminator hi]
      rfl

theorem not_terminator_of_getTerminator (ho : Ordered n (h.code b))
    (hnone : h.getTerminator b = none) : ∀ i ∈ h.code b, i.kind.isTerminator = false := by
  rcases eq_nil_or_concat (h.code b) with hnil | ⟨body, i, hcode⟩
  · rw [hnil]
    nofun
  · rw [concat_eq_append] at hcode
    intro j hj
    rw [hcode] at ho hj
    rcases mem_append.1 hj with hj | hj
    · exact ho.front j hj
    · rw [mem_singleton.1 hj]
      by_contra hi
      rw [getTerminator_eq hcode (by simpa using hi)] at hnone
      cases hnone

theorem exists_of_find (ho : Ordered n (h.code b)) (hf : h.find b id = some i) :
    i.id = id ∧ ∃ is₁ is₂, h.code b = is₁ ++ i :: is₂ ∧ ∀ j ∈ is₁ ++ is₂, j.id ≠ id := by
  obtain ⟨hid, is₁, is₂, hcode, -⟩ := find?_eq_some_iff_append.1 hf
  have hid : i.id = id := by simpa using hid
  refine ⟨hid, is₁, is₂, hcode, fun j hj heq ↦ ?_⟩
  have hnodup := ho.nodup
  rw [hcode] at hnodup
  have hnodup : ((i :: (is₁ ++ is₂)).map Instr.id).Nodup :=
    ((perm_middle.map Instr.id).nodup_iff).1 hnodup
  rw [map_cons, nodup_cons] at hnodup
  exact hnodup.1 (mem_map.2 ⟨j, hj, heq.trans hid.symm⟩)

end Slots

/-! ### The invariant -/

/-- What edits keep. -/
structure Booked (h : Handler) : Prop where
  /-- Nothing is in a block that does not exist, and nothing leads to it. -/
  absent : ∀ b ∉ h.blocks, h.code b = [] ∧ ∀ a, b ∉ exits (h.code a)
  /-- Terminators are last, and only they have blocks. -/
  ordered : ∀ b, Ordered h.next (h.code b)
  /-- Links are where the terminators lead. -/
  linked : h.LinkedBy fun a c ↦ (exits (h.code a)).count c

variable {h : Handler}

theorem Booked.toLinked (hB : h.Booked) : h.Linked :=
  hB.linked.congr fun a _ ↦ (slots_eq_exits (hB.ordered a)).symm

section Steps

variable {h h' : Handler} {b id k : ℕ} {i : Instr} {is : List Instr} {value : Operand}

variable {c : ℕ}

theorem Booked.mem_blocks (hB : h.Booked) (hc : c ∈ exits (h.code b)) : c ∈ h.blocks := by
  by_contra hnot
  exact (hB.absent c hnot).2 b hc

theorem Booked.mem_of_find (hB : h.Booked) (hf : h.find b id = some i) : b ∈ h.blocks := by
  by_contra hnot
  rw [find, (hB.absent b hnot).1] at hf
  cases hf

theorem Booked.recode (hB : h.Booked) (hb : b ∈ h.blocks) (hnext : h.next ≤ h'.next)
    (his : Ordered h'.next is) (hexits : ∀ c ∈ exits is, c ∈ h.blocks)
    (hblocks : h'.blocks = h.blocks) (hcode : h'.code = update h.code b is)
    (hlinks : h'.LinkedBy fun a c ↦
      if a = b then (exits is).count c else (exits (h.code a)).count c) : h'.Booked where
  absent c hc := by
    rw [hblocks] at hc
    obtain ⟨hnil, hnot⟩ := hB.absent c hc
    have hcb : c ≠ b := fun heq ↦ hc (heq ▸ hb)
    rw [hcode]
    refine ⟨by rw [update_of_ne hcb, hnil], fun a ↦ ?_⟩
    by_cases ha : a = b
    · rw [ha, update_self]
      exact fun hmem ↦ hc (hexits c hmem)
    · rw [update_of_ne ha]
      exact hnot a
  ordered a := by
    rw [hcode]
    by_cases ha : a = b
    · rwa [ha, update_self]
    · rw [update_of_ne ha]
      exact (hB.ordered a).mono hnext
  linked := hlinks.congr fun a c ↦ by
    rw [hcode]
    by_cases ha : a = b
    · rw [if_pos ha, ha, update_self]
    · rw [if_neg ha, update_of_ne ha]

/-! #### Instructions appended -/

theorem pushBack_eq (h : Handler) (b : ℕ) (i : Instr) :
    (h.pushBack b i).blocks = h.blocks ∧ (h.pushBack b i).next = h.next ∧
      (h.pushBack b i).code = update h.code b (h.code b ++ [i]) := by
  rw [pushBack]
  split
  · obtain ⟨ps, ss, heq⟩ := linkAll_eq
      { h with code := update h.code b (h.code b ++ [i]) } b i.targets
    rw [heq]
    exact ⟨rfl, rfl, rfl⟩
  · exact ⟨rfl, rfl, rfl⟩

theorem LinkedBy.pushBack {d : ℕ → ℕ → ℕ} (hd : h.LinkedBy d) (b : ℕ) (i : Instr) :
    (h.pushBack b i).LinkedBy fun a c ↦ d a c + if a = b then i.exits.count c else 0 := by
  have hd' : Handler.LinkedBy { h with code := update h.code b (h.code b ++ [i]) } d := hd
  rw [Handler.pushBack]
  split
  · next hi =>
    rw [exits_of_terminator hi]
    exact hd'.linkAll
  · next hi =>
    rw [exits_of_not_terminator (by simpa using hi)]
    exact hd'.congr fun a c ↦ by simp

theorem Booked.pushBack (hB : h.Booked) (hb : b ∈ h.blocks)
    (hnone : ∀ j ∈ h.code b, j.kind.isTerminator = false) (hid : ∀ j ∈ h.code b, j.id ≠ i.id)
    (hlt : i.id < h.next) (hi : i.Plain) (hexits : ∀ c ∈ i.exits, c ∈ h.blocks) :
    (h.pushBack b i).Booked := by
  obtain ⟨hblocks, hnext, hcode⟩ := pushBack_eq h b i
  have hall : exits (h.code b ++ [i]) = i.exits := by
    rw [exits_append, exits_eq_nil hnone, exits_cons]
    exact append_nil _
  refine hB.recode hb hnext.ge ?_ (by rwa [hall]) hblocks hcode ?_
  · rw [hnext]
    exact (hB.ordered b).concat hnone hid hlt hi
  · refine (hB.linked.pushBack b i).congr fun a c ↦ ?_
    by_cases ha : a = b
    · rw [if_pos ha, if_pos ha, ha, hall, exits_eq_nil hnone]
      exact zero_add _
    · rw [if_neg ha, if_neg ha, add_zero]

theorem exits_subset_of_exists (hex : ∀ o ∈ i.operands, h.Exists o) :
    ∀ c ∈ i.exits, c ∈ h.blocks := by
  intro c hc
  rw [Instr.exits] at hc
  split at hc
  · exact hex _ (mem_targets.1 hc) c rfl
  · cases hc

theorem find_eq_none_of_hasParent (hB : h.Booked) (hid : h.hasParent id = false) :
    ∀ b, ∀ j ∈ h.code b, j.id ≠ id := by
  intro b j hj heq
  have hb : b ∈ h.blocks := by
    by_contra hnot
    rw [(hB.absent b hnot).1] at hj
    cases hj
  have hnone : (h.find b id).isSome = false := by
    simpa using any_eq_false.1 hid b hb
  have hsome : (h.find b id).isSome = true :=
    find?_isSome.2 ⟨j, hj, decide_eq_true heq⟩
  rw [hsome] at hnone
  cases hnone

theorem Booked.tryPushBack (hB : h.Booked) (hpush : h.tryPushBack b i = some h')
    (hnone : ∀ j ∈ h.code b, j.kind.isTerminator = false) (hi : i.Plain) : h'.Booked := by
  obtain ⟨hok, hpush⟩ := ite_none_right_eq_some.1 hpush
  obtain ⟨hb, hlt, hid, hex⟩ := hok
  obtain rfl := some.inj hpush
  exact hB.pushBack hb hnone (find_eq_none_of_hasParent hB hid b) hlt hi
    (exits_subset_of_exists hex)

theorem Booked.create (hB : h.Booked) : Booked { h with next := h.next + 1 } :=
  { hB with ordered := fun b ↦ (hB.ordered b).mono (Nat.le_succ _) }

section

variable {operands : List Operand} (hclone : i.clone = some operands)
include hclone

theorem mem_of_clone : ∀ o ∈ operands, o ∈ i.operands := by
  have hfront : ∀ {n}, i.front n = some operands → ∀ o ∈ operands, o ∈ i.operands := by
    intro n hn o ho
    obtain ⟨-, hn⟩ := ite_none_right_eq_some.1 hn
    obtain rfl := some.inj hn
    exact mem_of_mem_take ho
  have hself : some i.operands = some operands → ∀ o ∈ operands, o ∈ i.operands := by
    intro heq o ho
    rwa [some.inj heq]
  rw [clone] at hclone
  split at hclone
  any_goals exact hfront hclone
  · obtain rfl := some.inj hclone
    nofun
  · split at hclone
    · cases hclone
    · exact hfront hclone
  · split at hclone
    · exact hself hclone
    · cases hclone
  · split at hclone
    · cases hclone
    · cases hclone
    · exact hself hclone
  · exact hself hclone
  · exact hself hclone

theorem exits_of_clone (id : ℕ) : ∀ c ∈ Instr.exits ⟨id, i.kind, operands⟩, c ∈ i.exits := by
  intro c hc
  rw [Instr.exits] at hc ⊢
  dsimp only at hc
  split at hc
  · next hi =>
    rw [if_pos hi]
    exact mem_targets.2 (mem_of_clone hclone _ (mem_targets.1 hc))
  · cases hc

theorem plain_of_clone (id : ℕ) (hi : i.Plain) : Instr.Plain ⟨id, i.kind, operands⟩ := by
  refine hi.imp_right fun hnil ↦ eq_nil_iff_forall_not_mem.2 fun c hc ↦ ?_
  have hmem := mem_targets.2 (mem_of_clone hclone _ (mem_targets.1 hc))
  rw [hnil] at hmem
  cases hmem

end

theorem Booked.pushClones (hB : h.Booked) (hb : b ∈ h.blocks)
    (hnone : is = [] ∨ ∀ j ∈ h.code b, j.kind.isTerminator = false)
    (hlast : is.Pairwise fun i _ ↦ i.kind.isTerminator = false) (hplain : ∀ i ∈ is, i.Plain)
    (hexits : ∀ i ∈ is, ∀ c ∈ i.exits, c ∈ h.blocks) (hpush : h.pushClones b is = some h') :
    h'.Booked := by
  induction is generalizing h with
  | nil =>
    obtain rfl := some.inj hpush
    exact hB
  | cons i is ih =>
    replace hnone := hnone.resolve_left (cons_ne_nil i is)
    obtain ⟨hi, hlast⟩ := pairwise_cons.1 hlast
    rw [pushClones] at hpush
    split at hpush
    · next operands hclone =>
      obtain ⟨hblocks, -, hcode⟩ := pushNew_eq h b i.kind operands
      refine ih ?_ (by rwa [hblocks]) ?_ hlast (fun j hj ↦ hplain j (mem_cons_of_mem i hj)) ?_ hpush
      · refine hB.create.pushBack hb hnone (fun j hj ↦ ?_) (Nat.lt_succ_self _)
          (plain_of_clone hclone _ (hplain i mem_cons_self)) fun c hc ↦ ?_
        · exact (((hB.ordered b).fresh j hj).ne)
        · exact hexits i mem_cons_self c (exits_of_clone hclone _ c hc)
      · rcases is with - | ⟨i', is⟩
        · exact Or.inl rfl
        · refine Or.inr fun j hj ↦ ?_
          rw [hcode, update_self] at hj
          rcases mem_append.1 hj with hj | hj
          · exact hnone j hj
          · rw [mem_singleton.1 hj]
            exact hi i' mem_cons_self
      · rw [hblocks]
        exact fun j hj ↦ hexits j (mem_cons_of_mem i hj)
    · cases hpush

variable {bb : ℕ}

theorem Booked.tryMergeBack (hB : h.Booked) (hnone : h.getTerminator b = none)
    (hmerge : h.tryMergeBack b bb = some h') : h'.Booked := by
  obtain ⟨hok, hmerge⟩ := ite_none_right_eq_some.1 hmerge
  have ho := hB.ordered bb
  refine hB.pushClones hok.1
    (Or.inr (not_terminator_of_getTerminator (hB.ordered b) hnone)) ho.last ho.plain
    (fun i hi c hc ↦ ?_) hmerge
  exact hB.mem_blocks (mem_flatMap.2 ⟨i, hi, hc⟩)

/-! #### Instructions removed and replaced -/

variable {is₁ is₂ : List Instr}

theorem getTerminator_eq_some_iff {n : ℕ} (ho : Ordered n (h.code b))
    (hcode : h.code b = is₁ ++ i :: is₂) :
    h.getTerminator b = some i ↔ i.kind.isTerminator = true := by
  refine ⟨fun ht ↦ (code_of_getTerminator ht).1, fun hi ↦ ?_⟩
  rw [hcode] at ho
  rw [(ho.of_terminator hi).1] at hcode
  exact getTerminator_eq hcode hi

theorem remove_eq (h : Handler) (b : ℕ) (i : Instr) :
    (h.remove b i).blocks = h.blocks ∧ (h.remove b i).next = h.next ∧
      (h.remove b i).code = update h.code b ((h.code b).erase i) := by
  rw [remove]
  split
  · obtain ⟨ps, ss, heq⟩ := unlinkAll_eq h b i.targets
    rw [heq]
    exact ⟨rfl, rfl, rfl⟩
  · exact ⟨rfl, rfl, rfl⟩

theorem tryRemove_eq (hremove : h.tryRemove b id = some h') :
    ∃ i, h.find b id = some i ∧ h' = h.remove b i := by
  rw [tryRemove] at hremove
  split at hremove
  · next i hf =>
    refine ⟨i, hf, ?_⟩
    split at hremove
    · split at hremove
      · exact (some.inj hremove).symm
      · cases hremove
    · exact (some.inj hremove).symm
  · cases hremove

theorem Booked.remove (hB : h.Booked) (hb : b ∈ h.blocks)
    (hcode : h.code b = is₁ ++ i :: is₂) (hid : ∀ j ∈ is₁ ++ is₂, j.id ≠ i.id) :
    (h.remove b i).Booked ∧ (h.remove b i).code b = is₁ ++ is₂ := by
  obtain ⟨hblocks, hnext, hcode'⟩ := remove_eq h b i
  have ho := hB.ordered b
  have herase : (h.code b).erase i = is₁ ++ is₂ := by
    rw [hcode, erase_append_right _ fun hi ↦ hid i (mem_append_left is₂ hi) rfl, erase_cons_head]
  rw [herase] at hcode'
  have hsub : (is₁ ++ is₂).Sublist (h.code b) :=
    hcode ▸ (Sublist.refl is₁).append (sublist_cons_self i is₂)
  have hlinks : (h.remove b i).LinkedBy fun a c ↦
      (exits (h.code a)).count c - if a = b then i.exits.count c else 0 := by
    rw [Handler.remove]
    split
    · next ht =>
      rw [exits_of_terminator ((getTerminator_eq_some_iff ho hcode).1 ht)]
      exact hB.linked.unlinkAll
    · next ht =>
      rw [getTerminator_eq_some_iff ho hcode, Bool.not_eq_true] at ht
      rw [exits_of_not_terminator ht]
      exact congr (h := { h with code := _ }) hB.linked fun a c ↦ by simp
  refine ⟨hB.recode hb hnext.ge ?_ (fun c hc ↦ ?_) hblocks hcode' (hlinks.congr fun a c ↦ ?_), ?_⟩
  · rw [hnext]
    exact ho.sublist hsub
  · obtain ⟨j, hj, hc⟩ := mem_flatMap.1 hc
    exact hB.mem_blocks (mem_flatMap.2 ⟨j, hsub.subset hj, hc⟩)
  · by_cases ha : a = b
    · rw [if_pos ha, if_pos ha, ha, hcode]
      simp only [exits_append, exits_cons, count_append]
      omega
    · rw [if_neg ha, if_neg ha, Nat.sub_zero]
  · rw [hcode', update_self]

theorem Booked.tryRemove (hB : h.Booked) (hremove : h.tryRemove b id = some h') : h'.Booked ∧
    ∃ i is₁ is₂, h.code b = is₁ ++ i :: is₂ ∧ i.id = id ∧ h'.code b = is₁ ++ is₂ := by
  obtain ⟨i, hf, rfl⟩ := tryRemove_eq hremove
  obtain ⟨hid, is₁, is₂, hcode, hne⟩ := exists_of_find (hB.ordered b) hf
  obtain ⟨hB', hcode'⟩ := hB.remove (hB.mem_of_find hf) hcode (hid ▸ hne)
  exact ⟨hB', i, is₁, is₂, hcode, hid, hcode'⟩

theorem Booked.tryRemove_terminator (hB : h.Booked) {t : Instr} (ht : h.getTerminator b = some t)
    (hid : t.id = id) (hremove : h.tryRemove b id = some h') :
    h'.Booked ∧ ∀ i ∈ h'.code b, i.kind.isTerminator = false := by
  obtain ⟨hB', i, is₁, is₂, hcode, hi, hcode'⟩ := hB.tryRemove hremove
  obtain ⟨hkind, body, hbody⟩ := code_of_getTerminator ht
  refine ⟨hB', ?_⟩
  have heq : i = t := by
    refine inj_on_of_nodup_map (hB.ordered b).nodup ?_ ?_ (hi.trans hid.symm)
    · exact hcode ▸ mem_append_right _ mem_cons_self
    · exact hbody ▸ mem_append_right _ mem_cons_self
  obtain ⟨hnil, hfront⟩ := (hcode ▸ hB.ordered b).of_terminator (heq ▸ hkind)
  rw [hcode', hnil, append_nil]
  exact hfront

theorem targets_rename (old new : ℕ) (i : Instr) : (rename old new i).targets = i.targets := by
  rw [targets, targets, rename, filterMap_map]
  refine filterMap_congr fun o _ ↦ ?_
  rw [comp_apply, Operand.rename]
  split
  · next heq =>
    rw [heq]
    rfl
  · rfl

theorem exits_rename (old new : ℕ) (i : Instr) : (rename old new i).exits = i.exits := by
  rw [Instr.exits, targets_rename]
  rfl

theorem exits_map_rename (old new : ℕ) (is : List Instr) :
    exits (is.map (.rename old new)) = exits is := by
  rw [exits, flatMap_map]
  simp only [exits_rename]
  rfl

theorem plain_rename {old new : ℕ} (hi : i.Plain) : (rename old new i).Plain :=
  hi.imp_right fun hnil ↦ (targets_rename old new i).trans hnil

theorem Booked.replaceAllUsesWith (hB : h.Booked) (old new : ℕ) :
    (h.replaceAllUsesWith old new).Booked where
  absent b hb := by
    obtain ⟨hnil, hnot⟩ := hB.absent b hb
    refine ⟨?_, fun a ↦ ?_⟩
    · show (h.code b).map _ = []
      rw [hnil, map_nil]
    · show b ∉ exits ((h.code a).map _)
      rw [exits_map_rename]
      exact hnot a
  ordered b := by
    have ho := hB.ordered b
    refine ⟨?_, fun i hi ↦ ?_, ?_, fun i hi ↦ ?_⟩
    · show (((h.code b).map (Instr.rename old new)).map Instr.id).Nodup
      rw [List.map_map]
      exact ho.nodup
    · obtain ⟨j, hj, rfl⟩ := mem_map.1 hi
      exact ho.fresh j hj
    · exact pairwise_map.2 ho.last
    · obtain ⟨j, hj, rfl⟩ := mem_map.1 hi
      exact plain_rename (ho.plain j hj)
  linked := congr (h := { h with code := _ }) hB.linked fun a c ↦ by
    show (exits (h.code a)).count c = (exits ((h.code a).map _)).count c
    rw [exits_map_rename]

theorem map_of_split (hne : ∀ j ∈ is₁ ++ is₂, j.id ≠ id) (hid : i.id = id) (f : Instr → Instr) :
    (is₁ ++ i :: is₂).map (fun j ↦ if j.id = id then f j else j) = is₁ ++ f i :: is₂ := by
  have hsame : ∀ is : List Instr, (∀ j ∈ is, j.id ≠ id) →
      is.map (fun j ↦ if j.id = id then f j else j) = is := by
    intro is his
    conv_rhs => rw [← map_id is]
    exact map_congr_left fun j hj ↦ if_neg (his j hj)
  rw [map_append, map_cons, hsame is₁ fun j hj ↦ hne j (mem_append_left _ hj),
    hsame is₂ fun j hj ↦ hne j (mem_append_right _ hj), if_pos hid]

variable {new : Instr}

theorem Booked.swap (hB : h.Booked) {old : ℕ} (hf : h.find b old = some i)
    (hold : i.kind.isTerminator = false) (hkind : new.kind.isTerminator = false) (hnew : new.Plain)
    (hlt : new.id < h.next) (hfree : ∀ j ∈ h.code b, j.id ≠ new.id) :
    Booked { h with
      code := update h.code b ((h.code b).map fun j ↦ if j.id = old then new else j) } := by
  have ho := hB.ordered b
  obtain ⟨hid, is₁, is₂, hcode, hne⟩ := exists_of_find ho hf
  rw [hcode, map_of_split hne hid fun _ ↦ new]
  rw [hcode] at ho hfree
  have hsame : exits (is₁ ++ new :: is₂) = exits (h.code b) := by
    rw [hcode, exits_append, exits_append, exits_cons, exits_cons,
      exits_of_not_terminator hold, exits_of_not_terminator hkind]
  refine hB.recode (hB.mem_of_find hf) (le_refl _)
    (ho.replace hlt (fun j hj ↦ hfree j ?_) (hkind.trans hold.symm) hnew)
    (fun c hc ↦ hB.mem_blocks (hsame ▸ hc)) rfl rfl
    (congr (h := { h with code := _ }) hB.linked fun a c ↦ ?_)
  · exact ((Sublist.refl is₁).append (sublist_cons_self i is₂)).subset hj
  · by_cases ha : a = b
    · rw [if_pos ha, ha, hsame]
    · rw [if_neg ha]

theorem Booked.tryReplace (hB : h.Booked) {old : ℕ} (hnew : new.Plain)
    (hreplace : h.tryReplace b old new = some h') : h'.Booked := by
  obtain ⟨hok, hreplace⟩ := ite_none_right_eq_some.1 hreplace
  obtain ⟨hsome, hparent, hlt, -⟩ := hok
  have hB₁ := hB.replaceAllUsesWith old new.id
  have hfree : ∀ j ∈ (h.replaceAllUsesWith old new.id).code b, j.id ≠ new.id := by
    intro j hj
    obtain ⟨j', hj', rfl⟩ := mem_map.1 hj
    exact find_eq_none_of_hasParent hB hparent b j' hj'
  obtain ⟨i, hf⟩ : ∃ i, (h.replaceAllUsesWith old new.id).find b old = some i := by
    obtain ⟨j, hj, hid⟩ := find?_isSome.1 hsome
    exact isSome_iff_exists.1 (find?_isSome.2 ⟨_, mem_map_of_mem hj, hid⟩)
  revert hB₁ hfree hf hreplace
  generalize hh₁ : h.replaceAllUsesWith old new.id = h₁
  intro hreplace hB₁ hfree hf
  have hlt : (rename old new.id new).id < h₁.next := hh₁ ▸ hlt
  obtain ⟨hid, is₁, is₂, hcode, hne⟩ := exists_of_find (hB₁.ordered b) hf
  have hiff := getTerminator_eq_some_iff (hB₁.ordered b) hcode
  dsimp only at hreplace
  split at hreplace
  · next ht =>
    obtain ⟨t, ht, htid⟩ := map_eq_some_iff.1 ht
    obtain ⟨h₂, hremove, hpush⟩ := bind_eq_some_iff.1 hreplace
    obtain ⟨hB₂, hnone⟩ := hB₁.tryRemove_terminator ht htid hremove
    exact hB₂.tryPushBack hpush hnone (plain_rename hnew)
  · next ht =>
    split at hreplace
    · cases hreplace
    · next hkind =>
      obtain rfl := some.inj hreplace
      refine hB₁.swap hf ?_ (by simpa using hkind) (plain_rename hnew) hlt hfree
      by_contra hi
      rw [hiff.2 (by simpa using hi)] at ht
      exact ht (congrArg some hid)

/-! #### Operands -/

variable {old : Operand} {operands : List Operand}

theorem count_targets_set (hold : operands[k]? = some old) (value : Operand) :
    ((operands.set k value).filterMap Operand.toBlock).count c + old.toBlock.toList.count c =
      (operands.filterMap Operand.toBlock).count c + value.toBlock.toList.count c := by
  have hcons : ∀ (o : Operand) (os : List Operand), ((o :: os).filterMap Operand.toBlock).count c =
      o.toBlock.toList.count c + (os.filterMap Operand.toBlock).count c := by
    intro o os
    cases ho : o.toBlock with
    | none => rw [filterMap_cons_none ho, toList_none, count_nil, zero_add]
    | some t =>
      rw [filterMap_cons_some ho, toList_some, count_cons, count_singleton]
      exact add_comm _ _
  induction operands generalizing k with
  | nil => cases hold
  | cons o os ih =>
    cases k with
    | zero =>
      obtain rfl : o = old := some.inj hold
      rw [set_cons_zero, hcons, hcons]
      omega
    | succ k =>
      have hrest := ih hold
      rw [set_cons_succ, hcons, hcons]
      omega

/-- A link for the new operand and none for the old one: what `setOperand` comes to. -/
theorem setOperand_eq (ho : Ordered h.next (h.code b)) (hf : h.find b id = some i)
    (hold : i.operands[k]? = some old) :
    h.setOperand b i k value = ((h.setOperands b id (i.operands.set k value)).unlinkAll b
      old.toBlock.toList).linkAll b value.toBlock.toList := by
  obtain ⟨hid, is₁, is₂, hcode, hne⟩ := exists_of_find ho hf
  have hfind : ((h.code b).find? fun j ↦ j.id = i.id) = some i := hid ▸ hf
  have hmap : (h.code b).map (fun j ↦
        if j.id = i.id then { j with operands := j.operands.set k value } else j) =
      (h.code b).map fun j ↦
        if j.id = id then { j with operands := i.operands.set k value } else j := by
    rw [hid, hcode, map_of_split hne hid fun j ↦ { j with operands := j.operands.set k value },
      map_of_split hne hid fun j ↦ { j with operands := i.operands.set k value }]
  have hsame : (some i >>= fun j ↦ j.operands[k]?) >>= Operand.toBlock = old.toBlock := by
    show (i.operands[k]?).bind Operand.toBlock = _
    rw [hold]
    rfl
  rw [setOperand, hfind, hmap, hsame, setOperands]
  cases old.toBlock <;> cases value.toBlock <;> rfl

theorem find_setOperands (ho : Ordered h.next (h.code b)) (hf : h.find b id = some i)
    (operands : List Operand) :
    (h.setOperands b id operands).find b id = some { i with operands := operands } := by
  obtain ⟨hid, is₁, is₂, hcode, hne⟩ := exists_of_find ho hf
  have hcode' : (h.setOperands b id operands).code b =
      is₁ ++ { i with operands := operands } :: is₂ := by
    rw [setOperands]
    dsimp only
    rw [update_self, hcode, map_of_split hne hid fun j ↦ { j with operands := operands }]
  rw [find, hcode', find?_append]
  have hnone : is₁.find? (fun j ↦ j.id = id) = none :=
    find?_eq_none.2 fun j hj ↦ by simpa using hne j (mem_append_left _ hj)
  rw [hnone, none_or]
  exact find?_cons_of_pos (decide_eq_true hid)

theorem Booked.setOperands (hB : h.Booked) (hf : h.find b id = some i)
    (hplain : Instr.Plain { i with operands := operands })
    (hexits : ∀ c ∈ Instr.exits { i with operands := operands }, c ∈ h.blocks)
    {ps ss : ℕ → List ℕ}
    (hlinks : LinkedBy { h.setOperands b id operands with predecessors := ps, successors := ss }
      fun a c ↦ (exits (h.code a)).count c + (if a = b then
        Instr.exits { i with operands := operands } |>.count c else 0) -
          if a = b then i.exits.count c else 0) :
    Booked { h.setOperands b id operands with predecessors := ps, successors := ss } := by
  have ho := hB.ordered b
  obtain ⟨hid, is₁, is₂, hcode, hne⟩ := exists_of_find ho hf
  have hmap : (h.code b).map (fun j ↦
      if j.id = id then { j with operands := operands } else j) =
      is₁ ++ { i with operands := operands } :: is₂ := by
    rw [hcode, map_of_split hne hid fun j ↦ { j with operands := operands }]
  have his : Ordered h.next (is₁ ++ { i with operands := operands } :: is₂) := by
    rw [hcode] at ho
    exact ho.replace (ho.fresh i (mem_append_right _ mem_cons_self)) (hid ▸ hne) rfl hplain
  refine hB.recode (hB.mem_of_find hf) (le_refl _) his (fun c hc ↦ ?_) rfl
    (congrArg (update h.code b) hmap) (hlinks.congr fun a c ↦ ?_)
  · rw [exits_append, exits_cons, mem_append, mem_append] at hc
    rcases hc with hc | hc | hc
    · refine hB.mem_blocks (b := b) ?_
      rw [hcode, exits_append]
      exact mem_append_left _ hc
    · exact hexits c hc
    · refine hB.mem_blocks (b := b) ?_
      rw [hcode, exits_append, exits_cons]
      exact mem_append_right _ (mem_append_right _ hc)
  · by_cases ha : a = b
    · rw [if_pos ha, if_pos ha, if_pos ha, ha, hcode, ← count_exits_replace, Nat.add_sub_cancel]
    · rw [if_neg ha, if_neg ha, if_neg ha]
      rfl

theorem count_exits_le (hi : i ∈ is) : i.exits.count c ≤ (exits is).count c := by
  obtain ⟨is₁, is₂, rfl⟩ := append_of_mem hi
  rw [exits_append, exits_cons, count_append, count_append]
  omega

theorem Booked.plain (hB : h.Booked) (hf : h.find b id = some i) : i.Plain :=
  (hB.ordered b).plain i (mem_of_find?_eq_some hf)

/-- What an instruction leads to changes as its operands do. An instruction that is not a terminator
has no blocks before and after. -/
theorem exits_of_targets (i' : Instr) {gone added : List ℕ} (hplain : i.Plain)
    (hkind : i'.kind = i.kind)
    (hcount : ∀ c, i'.targets.count c + gone.count c = i.targets.count c + added.count c)
    (hgone : ∀ c, gone.count c ≤ i.targets.count c)
    (hadded : i.kind.isTerminator = true ∨ added = []) : i'.Plain ∧ ∀ c,
      i'.exits.count c + gone.count c = i.exits.count c + added.count c ∧
        gone.count c ≤ i.exits.count c := by
  cases hi : i.kind.isTerminator with
  | true =>
    rw [exits_of_terminator hi, exits_of_terminator (hkind ▸ hi)]
    exact ⟨.inl (hkind ▸ hi), fun c ↦ ⟨hcount c, hgone c⟩⟩
  | false =>
    rw [exits_of_not_terminator hi, exits_of_not_terminator (hkind ▸ hi)]
    rw [hi] at hadded
    have htargets : i.targets = [] := hplain.resolve_left (by simp [hi])
    rw [htargets] at hcount hgone
    rw [hadded.resolve_left nofun] at hcount ⊢
    refine ⟨.inr (eq_nil_iff_forall_not_mem.2 fun c ↦ count_eq_zero.1 ?_), fun c ↦ ?_⟩
    · have hzero := hcount c
      simp only [count_nil] at hzero
      omega
    · exact ⟨by rw [Nat.le_zero.1 (hgone c)]; rfl, hgone c⟩

/-- Other operands for an instruction, where `gone` and `added` are the blocks by which they
differ. -/
theorem Booked.relink (hB : h.Booked) (hf : h.find b id = some i) (operands : List Operand)
    (gone added : List ℕ)
    (hcount : ∀ c, (operands.filterMap Operand.toBlock).count c + gone.count c =
      i.targets.count c + added.count c)
    (hgone : ∀ c, gone.count c ≤ i.targets.count c) (hadded : ∀ c ∈ added, c ∈ h.blocks)
    (hsuits : i.kind.isTerminator = true ∨ added = []) :
    let h' := ((h.setOperands b id operands).unlinkAll b gone).linkAll b added
    h'.Booked ∧ h'.find b id = some { i with operands := operands } := by
  intro h'
  obtain ⟨hplain, hexits⟩ :=
    exits_of_targets { i with operands := operands } (hB.plain hf) rfl hcount hgone hsuits
  have hmem : i ∈ h.code b := mem_of_find?_eq_some hf
  have hd : (h.setOperands b id operands).LinkedBy fun a c ↦ (exits (h.code a)).count c := hB.linked
  have hlinks : h'.LinkedBy _ := hd.unlinkAll.linkAll
  obtain ⟨ps₁, ss₁, heq₁⟩ := unlinkAll_eq (h.setOperands b id operands) b gone
  obtain ⟨ps, ss, heq⟩ := linkAll_eq ((h.setOperands b id operands).unlinkAll b gone) b added
  have hh' : h' = { h.setOperands b id operands with predecessors := ps, successors := ss } := by
    rw [heq₁] at heq
    exact (congrArg (fun h ↦ h.linkAll b added) heq₁).trans heq
  rw [hh'] at hlinks ⊢
  refine ⟨hB.setOperands hf hplain (fun c hc ↦ ?_) (hlinks.congr fun a c ↦ ?_),
    find_setOperands (hB.ordered b) hf operands⟩
  · have hpos := count_pos_iff.2 hc
    obtain ⟨hsum, -⟩ := hexits c
    rcases Nat.eq_zero_or_pos (added.count c) with hzero | hpos'
    · refine hB.mem_blocks (b := b) (count_pos_iff.1 ?_)
      have hle := count_exits_le (c := c) hmem
      omega
    · exact hadded c (count_pos_iff.1 hpos')
  · have hle := count_exits_le (c := c) hmem
    obtain ⟨hsum, hsub⟩ := hexits c
    by_cases ha : a = b
    · rw [if_pos ha, if_pos ha, if_pos ha, if_pos ha, ha]
      omega
    · rw [if_neg ha, if_neg ha, if_neg ha, if_neg ha]
      rfl

theorem Suits.toList (hsuits : h.Suits b id value) (hf : h.find b id = some i) :
    i.kind.isTerminator = true ∨ value.toBlock.toList = [] := by
  rcases hsuits with hnone | ⟨j, hj, hkind⟩
  · rw [hnone]
    exact .inr rfl
  · rw [hf] at hj
    exact .inl (some.inj hj ▸ hkind)

theorem Booked.trySetOperand (hB : h.Booked) (hsuits : h.Suits b id value)
    (hset : h.trySetOperand b id k value = some h') : h'.Booked ∧ ∃ i, h.find b id = some i ∧
      h'.find b id = some { i with operands := i.operands.set k value } := by
  rw [Handler.trySetOperand] at hset
  split at hset
  · next i hf =>
    split at hset
    · next old hold =>
      obtain ⟨hok, hset⟩ := ite_none_right_eq_some.1 hset
      obtain rfl := some.inj hset
      rw [setOperand_eq (hB.ordered b) hf hold]
      have hgone : ∀ c, old.toBlock.toList.count c ≤ i.targets.count c := by
        intro c
        have hnull := count_targets_set (c := c) hold Operand.null
        change _ = i.targets.count c + 0 at hnull
        omega
      obtain ⟨hB', hf'⟩ := hB.relink hf _ _ _ (fun c ↦ count_targets_set hold value) hgone
        (fun c hc ↦ hok.2 c (mem_toList.1 hc)) (hsuits.toList hf)
      exact ⟨hB', i, hf, hf'⟩
    · cases hset
  · cases hset

theorem Booked.tryAddOperand (hB : h.Booked) (hsuits : h.Suits b id value)
    (hadd : h.tryAddOperand b id value = some h') : h'.Booked := by
  rw [Handler.tryAddOperand] at hadd
  split at hadd
  · next i hf =>
    obtain ⟨hok, hadd⟩ := ite_none_right_eq_some.1 hadd
    obtain rfl := some.inj hadd
    refine (hB.relink hf _ [] _ (fun c ↦ ?_) (fun c ↦ Nat.zero_le _)
      (fun c hc ↦ hok.2 c (mem_toList.1 hc)) (hsuits.toList hf)).1
    rw [filterMap_append, count_append, count_nil, add_zero]
    cases hv : value.toBlock with
    | none => rw [filterMap_cons_none hv]; rfl
    | some t => rw [filterMap_cons_some hv]; rfl
  · cases hadd

theorem Suits.setOperand {v : Operand} (hsuits : h.Suits b id v) (hf : h.find b id = some i)
    (hf' : h'.find b id = some { i with operands := operands }) :
    h'.Suits b id v := by
  refine hsuits.imp_right ?_
  rintro ⟨j, hj, hkind⟩
  rw [hf] at hj
  exact ⟨_, hf', some.inj hj ▸ hkind⟩

variable {replacement : Operand} {ks : List ℕ}

theorem Booked.replaceFrom (hB : h.Booked) (hsuits : h.Suits b id replacement)
    (hreplace : h.replaceFrom b id old replacement ks = some h') : h'.Booked := by
  induction ks generalizing h with
  | nil =>
    obtain rfl := some.inj hreplace
    exact hB
  | cons k ks ih =>
    rw [replaceFrom] at hreplace
    split at hreplace
    · obtain ⟨h₁, hset, hrest⟩ := bind_eq_some_iff.1 hreplace
      obtain ⟨hB₁, i, hf, hf₁⟩ := hB.trySetOperand hsuits hset
      exact ih hB₁ (hsuits.setOperand hf hf₁) hrest
    · exact ih hB hsuits hreplace

theorem Booked.tryReplaceOperand (hB : h.Booked) (hsuits : h.Suits b id replacement)
    (hreplace : h.tryReplaceOperand b id old replacement = some h') : h'.Booked := by
  rw [Handler.tryReplaceOperand] at hreplace
  split at hreplace
  · exact hB.replaceFrom hsuits hreplace
  · cases hreplace

/-- After the loop of `clearOperands`, nothing is left in the slots it went through. -/
theorem Booked.clearFrom (hB : h.Booked) (hf : h.find b id = some i)
    (hclear : h.clearFrom b id ks = some h') : h'.Booked ∧ ∃ operands : List Operand,
      h'.find b id = some { i with operands := operands } ∧ ∀ k o, operands[k]? = some o →
        o = .null ∨ k ∉ ks ∧ i.operands[k]? = some o := by
  induction ks generalizing h i with
  | nil =>
    obtain rfl := some.inj hclear
    exact ⟨hB, i.operands, hf, fun k o ho ↦ .inr ⟨not_mem_nil, ho⟩⟩
  | cons k ks ih =>
    rw [clearFrom] at hclear
    obtain ⟨h₁, hset, hrest⟩ := bind_eq_some_iff.1 hclear
    obtain ⟨hB₁, j, hj, hf₁⟩ := hB.trySetOperand (.inl rfl) hset
    rw [hf] at hj
    obtain rfl := some.inj hj
    obtain ⟨hB', operands, hf', hoperands⟩ := ih hB₁ hf₁ hrest
    refine ⟨hB', operands, hf', fun k' o ho ↦ ?_⟩
    rcases hoperands k' o ho with hnull | ⟨hnot, hset⟩
    · exact .inl hnull
    · rw [getElem?_set] at hset
      split at hset
      · split at hset
        · exact .inl (some.inj hset).symm
        · cases hset
      · next hne =>
        refine .inr ⟨fun hmem ↦ ?_, hset⟩
        exact (mem_cons.1 hmem).elim (fun heq ↦ hne heq.symm) hnot

theorem Booked.tryClearOperands (hB : h.Booked) (hclear : h.tryClearOperands b id = some h') :
    h'.Booked := by
  rw [Handler.tryClearOperands] at hclear
  split at hclear
  · next i hf =>
    obtain ⟨h₁, hloop, rfl⟩ := map_eq_some_iff.1 hclear
    obtain ⟨hB₁, operands, hf₁, hoperands⟩ := hB.clearFrom hf hloop
    have hnil : targets { i with operands := operands } = [] := by
      refine filterMap_eq_nil_iff.2 fun o ho ↦ ?_
      obtain ⟨k, hk⟩ := getElem?_of_mem ho
      rcases hoperands k o hk with rfl | ⟨hnot, hsome⟩
      · rfl
      · exact absurd (List.mem_range.2 (List.getElem?_eq_some_iff.1 hsome).1) hnot
    refine (hB₁.relink hf₁ [] [] [] (fun c ↦ ?_) (fun c ↦ Nat.zero_le _) nofun (.inr rfl)).1
    rw [hnil]
    rfl
  · cases hclear

/-! #### Blocks -/

theorem Booked.createBlock (hB : h.Booked) (hcreate : h.createBlock b = some h') : h'.Booked := by
  rw [Handler.createBlock] at hcreate
  split at hcreate
  · cases hcreate
  · next hb =>
    obtain rfl := some.inj hcreate
    obtain ⟨hnil, hnot⟩ := hB.absent b hb
    have hcode : update h.code b [] = h.code := by
      rw [← hnil]
      exact update_eq_self b h.code
    have hzero : ∀ a, (exits (h.code a)).count b = 0 := fun a ↦ count_eq_zero.2 (hnot a)
    refine ⟨fun c hc ↦ ?_, fun c ↦ ?_, fun a c ↦ ?_⟩
    · dsimp only at hc ⊢
      rw [hcode]
      exact hB.absent c fun hmem ↦ hc (mem_append_left [b] hmem)
    · dsimp only
      rw [hcode]
      exact hB.ordered c
    · dsimp only
      rw [hcode]
      obtain ⟨hs, hp⟩ := hB.linked a c
      constructor
      · by_cases ha : a = b
        · rw [ha, update_self, hnil]
          rfl
        · rw [update_of_ne ha, hs]
      · by_cases hc : c = b
        · rw [hc, update_self, hzero]
          rfl
        · rw [update_of_ne hc, hp]

theorem destroy_eq (his : ∀ i ∈ is, i.targets = []) : h.destroy b is = some h := by
  induction is with
  | nil => rfl
  | cons i is ih =>
    rw [destroy, his i mem_cons_self]
    exact ih fun j hj ↦ his j (mem_cons_of_mem i hj)

theorem Booked.tryErase (hB : h.Booked) (herase : h.tryErase bb = some h') :
    h'.Booked := by
  obtain ⟨-, herase⟩ := ite_none_right_eq_some.1 herase
  obtain ⟨h₁, hremove, herase⟩ := bind_eq_some_iff.1 herase
  have hleft : h₁.Booked ∧ ∀ i ∈ h₁.code bb, i.kind.isTerminator = false := by
    split at hremove
    · next t ht => exact hB.tryRemove_terminator ht rfl hremove
    · next hnone =>
      obtain rfl := some.inj hremove
      exact ⟨hB, not_terminator_of_getTerminator (hB.ordered bb) hnone⟩
  obtain ⟨hB₁, hnone⟩ := hleft
  have hplain : ∀ i ∈ (h₁.code bb).reverse, i.targets = [] := by
    intro i hi
    have hi := mem_reverse.1 hi
    exact ((hB₁.ordered bb).plain i hi).resolve_left (by simp [hnone i hi])
  rw [destroy_eq hplain] at herase
  change (if h₁.predecessors bb = [] ∧ h₁.successors bb = [] then _ else _) = _ at herase
  obtain ⟨hok, herase⟩ := ite_none_right_eq_some.1 herase
  obtain rfl := some.inj herase
  have hexits : ∀ a, bb ∉ exits (h₁.code a) := by
    intro a hmem
    have hcount := (hB₁.linked a bb).2
    rw [hok.1] at hcount
    exact (count_pos_iff.2 hmem).ne hcount
  have hsame : ∀ a, exits (update h₁.code bb [] a) = exits (h₁.code a) := by
    intro a
    by_cases ha : a = bb
    · rw [ha, update_self, exits_eq_nil hnone]
      rfl
    · rw [update_of_ne ha]
  refine ⟨fun c hc ↦ ?_, fun c ↦ ?_, fun a c ↦ ?_⟩
  · dsimp only at hc ⊢
    simp only [hsame]
    by_cases hcb : c = bb
    · rw [hcb, update_self]
      exact ⟨rfl, hexits⟩
    · rw [update_of_ne hcb]
      exact hB₁.absent c fun hmem ↦ hc ((mem_erase_of_ne hcb).2 hmem)
  · dsimp only
    by_cases hcb : c = bb
    · rw [hcb, update_self]
      exact Ordered.nil
    · rw [update_of_ne hcb]
      exact hB₁.ordered c
  · dsimp only
    rw [hsame]
    exact hB₁.linked a c

end Steps

/-! ### Every run -/

theorem Booked.edit {h' : Handler} {e : Edit} (hB : h.Booked) (hok : h.Admits e)
    (htidy : h.Tidy e) (hedit : h.edit e = some h') : h'.Booked := by
  cases e with
  | createBlock b => exact hB.createBlock hedit
  | create =>
    obtain rfl := some.inj hedit
    exact hB.create
  | pushBack b i =>
    exact hB.tryPushBack hedit (not_terminator_of_getTerminator (hB.ordered b) hok) htidy
  | mergeBack b bb => exact hB.tryMergeBack hok hedit
  | remove b id => exact (hB.tryRemove hedit).1
  | replace b old new => exact hB.tryReplace htidy hedit
  | setOperand b id k value => exact (hB.trySetOperand htidy hedit).1
  | replaceOperand b id old replacement => exact hB.tryReplaceOperand htidy hedit
  | addOperand b id value => exact hB.tryAddOperand htidy hedit
  | clearOperands b id => exact hB.tryClearOperands hedit
  | erase bb => exact hB.tryErase hedit

/-- **The links of a handler.** In every run of edits in which blocks are given to terminators only,
the two lists of links hold a block as often as the terminator does. -/
theorem linked_of_reach {h : Handler} (hreach : edits.Reach (fun h e ↦ h.Admits e ∧ h.Tidy e) h)
    (a b : ℕ) :
    (h.successors a).count b = h.slots a b ∧ (h.predecessors b).count a = h.slots a b := by
  have hB : h.Booked := hreach.invariant
    ⟨fun _ _ ↦ ⟨rfl, fun _ ↦ not_mem_nil⟩, fun _ ↦ Ordered.nil, fun _ _ ↦ ⟨rfl, rfl⟩⟩
    fun _ hB hok hedit ↦ hB.edit hok.1 hok.2 hedit
  exact hB.toLinked a b

theorem exists_reach_branching :
    ∃ h, edits.Reach (fun h e ↦ h.Admits e ∧ h.Tidy e) h ∧ h.slots 0 1 = 1 := by
  have h₁ : edits.Reach (fun h e ↦ h.Admits e ∧ h.Tidy e) edits.init := .init
  have h₂ := h₁.step (a := Edit.createBlock 0) ⟨trivial, trivial⟩ rfl
  have h₃ := h₂.step (a := Edit.createBlock 1) ⟨trivial, trivial⟩ rfl
  have h₄ := h₃.step (a := Edit.create) ⟨trivial, trivial⟩ rfl
  have h₅ := h₄.step (a := Edit.pushBack 0 ⟨0, .br, [.block 1]⟩) ⟨rfl, .inl rfl⟩ rfl
  exact ⟨_, h₅, rfl⟩

theorem linked_branching : ∃ h, edits.Reach (fun h e ↦ h.Admits e ∧ h.Tidy e) h ∧
    (h.successors 0).count 1 = 1 ∧ (h.predecessors 1).count 0 = 1 := by
  obtain ⟨h, hreach, hslots⟩ := exists_reach_branching
  obtain ⟨hs, hp⟩ := linked_of_reach hreach 0 1
  exact ⟨h, hreach, hs.trans hslots, hp.trans hslots⟩

/-- A negation in a block is given a block as its operand: there is a link, and no terminator. -/
theorem exists_reach_stray :
    ∃ h, edits.Reach Admits h ∧ (h.successors 0).count 1 = 1 ∧ h.slots 0 1 = 0 := by
  have h₁ : edits.Reach Admits edits.init := .init
  have h₂ := h₁.step (a := Edit.createBlock 0) trivial rfl
  have h₃ := h₂.step (a := Edit.createBlock 1) trivial rfl
  have h₄ := h₃.step (a := Edit.create) trivial rfl
  have h₅ := h₄.step (a := Edit.pushBack 0 ⟨0, .unary .bnot, [.null]⟩) rfl rfl
  have h₆ := h₅.step (a := Edit.setOperand 0 0 0 (.block 1)) trivial rfl
  exact ⟨_, h₆, rfl, rfl⟩

/-- **Links without slots.** Not every run keeps the links those of the terminators: an operand that
is a block is linked whatever the instruction. -/
theorem not_linked : ¬∀ h, edits.Reach Admits h → ∀ a b,
    (h.successors a).count b = h.slots a b ∧ (h.predecessors b).count a = h.slots a b := by
  intro hall
  obtain ⟨h, hreach, hcount, hslots⟩ := exists_reach_stray
  have heq := (hall h hreach 0 1).1
  rw [hcount, hslots] at heq
  cases heq

end Handler

end Xzero.Flow.Ir
