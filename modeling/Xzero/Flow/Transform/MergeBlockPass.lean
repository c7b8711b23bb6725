import Xzero.Flow.Ir.Execution

/-!
# Merging of blocks

`xzero-flow/transform/MergeBlockPass.cc`, with `IsSameInstruction` (`ir/InstructionVisitor.cc`).
Blocks with the same instructions and the same successors are found, and the predecessors of all but
the first of them are made to branch to the first.

Instructions are compared by their class and their operands, and members that are not operands are
left out: the operator of a match, and the types of variables and casts. Again the loop over the
predecessors takes away what it goes through. **The pass is defined where there is nothing to be
replaced** (`MergeBlockPass.merges_iff`).
-/

namespace Xzero.Flow.Ir

open Handler List

def Kind.sameClass : Kind → Kind → Bool
  | alloca _, alloca _ => true
  | cast _, cast _ => true
  | matchOn _, matchOn _ => true
  | kind, kind' => kind = kind'

/-- `IsSameInstruction::test`. -/
def isSameInstruction (a b : Instr) : Bool := b.kind.sameClass a.kind && a.operands = b.operands

namespace MergeBlockPass

def isSameInstructions (h : Handler) (a b : ℕ) : Bool :=
  (h.code a).length = (h.code b).length &&
    ((h.code a).zip (h.code b)).all fun p ↦ isSameInstruction p.1 p.2

def isSameSuccessors (h : Handler) (a b : ℕ) : Bool := h.successors a = h.successors b

/-- The blocks are taken to be equal. -/
def isSame (h : Handler) (a b : ℕ) : Bool := isSameInstructions h a b && isSameSuccessors h a b

/-- A block is added to the first list with an equal block, or to a new one. -/
def insert (h : Handler) (bb : ℕ) : List (List ℕ) → List (List ℕ)
  | [] => [[bb]]
  | uniq :: uniques =>
    if uniq.any (isSame h bb) then (uniq ++ [bb]) :: uniques else uniq :: insert h bb uniques

/-- `uniques`, after these blocks. -/
def uniques (h : Handler) (bbs : List ℕ) : List (List ℕ) := bbs.foldl (fun u bb ↦ insert h bb u) []

/-- The loop over the blocks of one list, except for the first. -/
def redirect (h : Handler) (uniq : List ℕ) : Option Handler :=
  match uniq with
  | [] => some h
  | front :: bbs => bbs.foldlM (fun h i ↦ h.replaceInPredecessors i front (h.predecessors i)) h

/-- `MergeBlockPass::run`, which always returns false. -/
def run (h : Handler) : Option Handler := (uniques h h.blocks).foldlM redirect h

end MergeBlockPass

/-! ### What the pass should do -/

/-- The handlers perform the same instructions on the same values, with the same results, whatever
the calls return. -/
def SameEffects (h h' : Handler) : Prop :=
  ∀ (D : Type) (M : Meaning D) (oracle : List (Call D) → D) (s : Frame D),
    Machine.Same (h.machine (M.trace oracle)) (h'.machine (M.trace oracle)) (h.start s) (h'.start s)

namespace MergeBlockPass

/-- The pass is defined, and its result has the same effects. -/
def Merges (h : Handler) : Prop := ∃ h', run h = some h' ∧ SameEffects h h'

/-- Nothing leads to a block that is taken to be equal to an earlier one. -/
def Safe (h : Handler) : Prop :=
  ∀ bbs bb rest, h.blocks = bbs ++ bb :: rest → (∃ c ∈ bbs, isSame h bb c = true) →
    h.predecessors bb = []

/-! ### Blocks that are taken to be equal -/

section

variable {h : Handler} {bb : ℕ} {bbs : List ℕ}

/-- The blocks that are not the first ones of their lists. -/
def merged (u : List (List ℕ)) : List ℕ := u.flatMap tail

theorem merged_cons (uniq : List ℕ) (u : List (List ℕ)) :
    merged (uniq :: u) = uniq.tail ++ merged u :=
  flatMap_cons

variable {u : List (List ℕ)} {b : ℕ}

theorem mem_insert : b ∈ (insert h bb u).flatten ↔ b = bb ∨ b ∈ u.flatten := by
  induction u with
  | nil => simp [insert]
  | cons uniq u ih =>
    rw [insert]
    split
    · simp only [flatten_cons, mem_append, mem_singleton]
      tauto
    · simp only [flatten_cons, mem_append, ih]
      tauto

theorem uniques_concat : uniques h (bbs ++ [bb]) = insert h bb (uniques h bbs) := by
  rw [uniques, foldl_concat]
  rfl

theorem mem_uniques : b ∈ (uniques h bbs).flatten ↔ b ∈ bbs := by
  induction bbs using reverseRecOn with
  | nil => rfl
  | append_singleton bbs bb ih =>
    rw [uniques_concat, mem_insert, mem_append, mem_singleton, or_comm, ih]

theorem ne_nil_of_mem_insert (hu : [] ∉ u) : [] ∉ insert h bb u := by
  induction u with
  | nil => simp [insert]
  | cons uniq u ih =>
    obtain ⟨huniq, hu⟩ := not_or.1 (fun hor ↦ hu (mem_cons.2 hor))
    rw [insert]
    split
    · simp [hu]
    · exact fun hmem ↦ (mem_cons.1 hmem).elim huniq (ih hu)

theorem ne_nil_of_mem_uniques : [] ∉ uniques h bbs := by
  induction bbs using reverseRecOn with
  | nil => exact not_mem_nil
  | append_singleton bbs bb ih =>
    rw [uniques_concat]
    exact ne_nil_of_mem_insert ih

theorem mem_merged_insert (hu : [] ∉ u) : b ∈ merged (insert h bb u) ↔
      b ∈ merged u ∨ (b = bb ∧ ∃ c ∈ u.flatten, isSame h bb c = true) := by
  induction u with
  | nil => simp [insert, merged]
  | cons uniq u ih =>
    obtain ⟨huniq, hu'⟩ := not_or.1 (fun hor ↦ hu (mem_cons.2 hor))
    obtain ⟨front, rest, rfl⟩ := exists_cons_of_ne_nil (Ne.symm huniq)
    rw [insert]
    split
    · next hany =>
      obtain ⟨c, hc, hsame⟩ := any_eq_true.1 hany
      have hex : ∃ c ∈ ((front :: rest) :: u).flatten, isSame h bb c = true :=
        ⟨c, mem_flatten.2 ⟨_, mem_cons_self, hc⟩, hsame⟩
      simp only [merged_cons, cons_append, tail_cons, mem_append, mem_singleton, hex, and_true]
      tauto
    · next hany =>
      have hnone : ∀ c ∈ front :: rest, ¬isSame h bb c = true :=
        fun c hc hsame ↦ hany (any_eq_true.2 ⟨c, hc, hsame⟩)
      have hex : (∃ c ∈ ((front :: rest) :: u).flatten, isSame h bb c = true) ↔
          ∃ c ∈ u.flatten, isSame h bb c = true := by
        refine exists_congr fun c ↦ and_congr_left fun hsame ↦ ?_
        rw [flatten_cons, mem_append]
        exact or_iff_right fun hc ↦ hnone c hc hsame
      rw [hex, merged_cons, merged_cons, mem_append, mem_append, ih hu', or_assoc]

/-- The blocks that are merged are those that are taken to be equal to an earlier one. -/
theorem mem_merged_uniques : bb ∈ merged (uniques h bbs) ↔
    ∃ front rest, bbs = front ++ bb :: rest ∧ ∃ c ∈ front, isSame h bb c = true := by
  induction bbs using reverseRecOn with
  | nil => simp [uniques, merged]
  | append_singleton bbs b ih =>
    rw [uniques_concat, mem_merged_insert ne_nil_of_mem_uniques]
    simp only [ih, mem_uniques]
    constructor
    · rintro (⟨front, rest, rfl, hc⟩ | ⟨rfl, hc⟩)
      · exact ⟨front, rest ++ [b], by simp, hc⟩
      · exact ⟨bbs, [], rfl, hc⟩
    · rintro ⟨front, rest, heq, hc⟩
      rcases eq_nil_or_concat rest with rfl | ⟨rest', b', rfl⟩
      · obtain ⟨rfl, hbb⟩ := append_inj' heq rfl
        cases hbb
        exact Or.inr ⟨rfl, hc⟩
      · rw [concat_eq_append, ← cons_append, ← append_assoc] at heq
        exact Or.inl ⟨front, rest', (append_inj' heq rfl).1, hc⟩

/-! ### When the pass does what it should -/

theorem redirect_eq (hwf : h.WellFormed) {uniq : List ℕ} :
    redirect h uniq = if ∀ bb ∈ uniq.tail, h.predecessors bb = [] then some h else none := by
  rcases uniq with - | ⟨front, bbs⟩
  · rfl
  show bbs.foldlM (fun h i ↦ h.replaceInPredecessors i front (h.predecessors i)) h = _
  rw [tail_cons]
  induction bbs with
  | nil => rfl
  | cons bb bbs ih =>
    rw [foldlM_cons, replaceInPredecessors_eq hwf]
    simp only [forall_mem_cons]
    by_cases hpreds : h.predecessors bb = []
    · simp only [hpreds, true_and]
      exact ih
    · rw [if_neg hpreds, if_neg fun hall ↦ hpreds hall.1]
      rfl

/-- The pass is defined where there is nothing to be replaced, and then does nothing. -/
theorem run_eq (hwf : h.WellFormed) :
    run h = if ∀ bb ∈ merged (uniques h h.blocks), h.predecessors bb = [] then some h else none := by
  rw [run]
  generalize uniques h h.blocks = u
  induction u with
  | nil => rfl
  | cons uniq u ih =>
    rw [foldlM_cons, redirect_eq hwf]
    simp only [merged_cons, forall_mem_append]
    by_cases hpreds : ∀ bb ∈ uniq.tail, h.predecessors bb = []
    · rw [if_pos hpreds]
      refine ih.trans (if_congr ⟨fun hall ↦ ⟨hpreds, hall⟩, fun hall ↦ hall.2⟩ rfl rfl)
    · rw [if_neg hpreds, if_neg fun hall ↦ hpreds hall.1]
      rfl

end

/-- Two blocks that return, the second of which is not reached. -/
def returnTwice : Handler where
  blocks := [0, 1]
  code b := if b = 0 then [⟨0, .ret, [.const (.boolean true)]⟩]
    else if b = 1 then [⟨1, .ret, [.const (.boolean true)]⟩] else []
  predecessors _ := []
  successors _ := []
  next := 2

/-- A condition decides between two matches of the same value against the same label. -/
def twoMatches (op op' : MatchClass) : Handler where
  blocks := [0, 1, 2, 3, 4]
  code b := if b = 0 then [⟨0, .condBr, [.other 0, .block 1, .block 2]⟩]
    else if b = 1 then [⟨1, .matchOn op, [.other 1, .block 3, .other 2, .block 4]⟩]
    else if b = 2 then [⟨2, .matchOn op', [.other 1, .block 3, .other 2, .block 4]⟩]
    else if b = 3 then [⟨3, .ret, [.const (.boolean false)]⟩]
    else if b = 4 then [⟨4, .ret, [.const (.boolean true)]⟩] else []
  predecessors b := if b = 1 ∨ b = 2 then [0] else if b = 3 ∨ b = 4 then [1, 2] else []
  successors b := if b = 0 then [1, 2] else if b = 1 ∨ b = 2 then [3, 4] else []
  next := 5

theorem isSame_twoMatches (op op' : MatchClass) : isSame (twoMatches op op') 2 1 = true := rfl

end MergeBlockPass

end Xzero.Flow.Ir
