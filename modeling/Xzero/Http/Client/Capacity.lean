import Xzero.Http.Client.Callbacks
import Xzero.TokenShaper.Dequeue

/-!
# The tokens of a cluster and the capacities of its members

The shaper of a cluster is to have as many tokens as the members that are enabled and online
can serve at a time. The cluster adjusts the number when it is told of a change. It is told
of the health and of the capacity of a member, but not when a member is enabled, disabled or
removed, and it does not look at the health of a member whose capacity changes; in sticky
offline mode it disables a member that it has just counted. In every run that has none of
this, and in which the numbers are small enough for the arithmetic with a `float`, the tokens
are the capacity of the members that are up (**`Cluster.balanced_of_reach`**). Disabling a
member is enough for the two to differ (**`Cluster.not_balanced`**).
-/

namespace Xzero.Http.Client

open TokenShaper List Option Function Rose Member

/-- What a member contributes to the tokens of its cluster. -/
def Member.share (x : Member) : ℕ := if x.enabled ∧ x.state = .online then x.capacity else 0

/-- A member without what changes as it serves requests. -/
def Member.outline (x : Member) : Member := { x with load := 0, consecutiveSuccessCount := 0 }

namespace Cluster

variable {c : Settings} {s s' : Cluster} {r m status : ℕ} {clock : Clock}

/-- The capacity of the members that are enabled and online. -/
def capacity (s : Cluster) : ℕ := (s.members.map share).sum

/-- The shaper has as many tokens as the members that are up can serve. -/
def Balanced (s : Cluster) : Prop := s.shaper.label.rate = s.capacity

instance : Decidable s.Balanced := inferInstanceAs (Decidable (_ = _))

/-! ### What does not concern the number of tokens -/

/-- What the number of tokens depends on. -/
def outline (s : Cluster) : (ℕ × ℚ) × ℕ × List Member :=
  ((s.shaper.label.rate, s.shaper.label.ratePercent), s.fresh, s.members.map .outline)

/-- The figures of a node that are configured. -/
def figures (x : TokenShaper.Node ℕ) : ℕ × ℚ := (x.rate, x.ratePercent)

variable {t : TokenShaper.Tree ℕ}

theorem outline_shaper (h : t.map figures = s.shaper.map figures) :
    ({ s with shaper := t } : Cluster).outline = s.outline := by
  have hlabel := congrArg label h
  rw [label_map, label_map] at hlabel
  exact congrArg (·, s.fresh, s.members.map Member.outline) hlabel

variable {f : Member → Member}

theorem outline_setMember (hf : ∀ x, (f x).outline = x.outline) :
    (s.setMember m f).outline = s.outline := by
  rw [outline, outline, setMember, List.map_map]
  congr 2
  refine List.map_congr_left fun x _ ↦ ?_
  rw [comp_apply]
  split
  · exact hf x
  · rfl

theorem outline_handOver (x : Member) : (s.handOver x r).outline = s.outline :=
  outline_setMember (s := s) (m := x.id) (f := fun x ↦ { x with load := x.load + 1 }) fun _ ↦ rfl

theorem Scheduled.outline_eq {status : SchedulerStatus} (h : Scheduled r s status s') :
    s'.outline = s.outline := by
  cases h with
  | taken => exact outline_handOver _
  | refused => rfl

theorem outline_dequeueTo (h : dequeueTo m s = some s') : s'.outline = s.outline := by
  rw [dequeueTo] at h
  split at h
  · cases h
  · next t hdeq =>
    cases h
    exact outline_shaper (map_dequeue (fun _ ↦ rfl) (fun _ _ ↦ rfl) (fun _ ↦ rfl) hdeq)
  · next q r t hdeq =>
    cases h
    exact outline_shaper (map_dequeue (fun _ ↦ rfl) (fun _ _ ↦ rfl) (fun _ ↦ rfl) hdeq)

theorem outline_onMessageEnd (h : onMessageEnd r status s = some s') : s'.outline = s.outline := by
  rw [onMessageEnd] at h
  split at h
  · cases h
  · split at h
    · cases h
      rfl
    · split at h
      · next m' t _ hput =>
        obtain ⟨s₁, hrelease, rfl⟩ := map_eq_some_iff.mp h
        rw [release] at hrelease
        split at hrelease
        · cases hrelease
        · exact (outline_dequeueTo hrelease).trans
            (outline_shaper (map_put (fun _ ↦ rfl) hput))
      · cases h

theorem outline_enqueue (h : enqueue c r clock s = some s') : s'.outline = s.outline := by
  rw [enqueue] at h
  split at h
  · cases h
  · split at h
    · cases h
    · split at h
      · cases h
        exact outline_shaper (map_mapAt
          (g := fun x : Node ℕ ↦ (x.push r clock.ctime).updateQueueTimer clock.now)
          (fun _ ↦ rfl) _ s.shaper)
      · exact outline_onMessageEnd h

theorem outline_verifyTryCount {b : Bool} (h : verifyTryCount c r s = some (b, s')) :
    s'.outline = s.outline := by
  rw [verifyTryCount] at h
  split at h
  · cases h
  · split at h
    · cases h
      rfl
    · obtain ⟨s₁, hend, heq⟩ := map_eq_some_iff.mp h
      cases heq
      exact outline_onMessageEnd hend

theorem outline_reschedule (h : reschedule c r clock s = some s') : s'.outline = s.outline := by
  rw [reschedule] at h
  split at h
  · cases h
  · next hverify =>
    cases h
    exact outline_verifyTryCount hverify
  · next s₁ hverify =>
    have hs₁ := outline_verifyTryCount hverify
    split at h
    · cases h
    · next hsched =>
      cases h
      exact (scheduled hsched).outline_eq.trans hs₁
    · next s₂ _ hsched =>
      exact (outline_enqueue h).trans ((scheduled hsched).outline_eq.trans hs₁)

theorem outline_schedule {p : Address} (h : schedule c p clock s = some s') :
    s'.outline = s.outline := by
  rw [schedule] at h
  split at h
  · cases h
  · dsimp only at h
    split at h
    · exact (outline_onMessageEnd h).trans rfl
    · have hget : ({ s with
          requests := s.requests ++ [{ bucket := p }]
          shaper := (get p 1 s.shaper).2 } : Cluster).outline = s.outline :=
        outline_shaper (map_get (fun _ ↦ rfl) p s.shaper)
      split at h
      · split at h
        · cases h
        · next hsched =>
          cases h
          exact (scheduled hsched).outline_eq.trans hget
        · next s₂ _ hsched =>
          have hs₂ := (scheduled hsched).outline_eq.trans hget
          split at h
          · cases h
          · next t hput =>
            have ht := (outline_shaper (map_put (fun _ ↦ rfl) hput)).trans hs₂
            split at h
            · exact (outline_onMessageEnd h).trans ht
            · exact (outline_enqueue h).trans ht
      · split at h
        · exact (outline_enqueue h).trans hget
        · exact (outline_onMessageEnd h).trans hget

theorem outline_onProcessingFailed (h : onProcessingFailed c r clock s = some s') :
    s'.outline = s.outline := by
  rw [onProcessingFailed] at h
  split at h
  · cases h
  · split at h
    · cases h
    · split at h
      · cases h
      · next hput =>
        exact (outline_reschedule h).trans (outline_shaper (map_put (fun _ ↦ rfl) hput))

theorem outline_runTask {task : Task} (h : runTask c clock s task = some s') :
    s'.outline = s.outline := by
  cases task with
  | timedOut r => exact outline_onMessageEnd h
  | dequeued r m =>
    rw [runTask] at h
    split at h
    · cases h
    · next x _ =>
      by_cases hadmits : x.Admits
      · rw [tryProcess_of_admits hadmits] at h
        obtain ⟨⟨b, s₁⟩, hverify, rfl⟩ := map_eq_some_iff.mp h
        exact (outline_verifyTryCount hverify).trans (outline_handOver x)
      · obtain ⟨e, he, htry⟩ := tryProcess_of_not_admits hadmits
        rw [htry] at h
        cases e with
        | success => exact absurd rfl he
        | unavailable | overloaded =>
          exact outline_reschedule (s := (s.setTokens r 1).setTokens r 0) h

/-! ### What does -/

variable {x : Member}

theorem member?_eq_some (h : s.member? m = some x) : x ∈ s.members ∧ x.id = m :=
  ⟨mem_of_find?_eq_some h, by simpa using find?_some h⟩

theorem member?_setMember (hf : ∀ x, (f x).id = x.id) :
    (s.setMember m f).member? m = (s.member? m).map f := by
  rw [member?, member?, setMember, find?_map]
  have hid : (fun x : Member ↦ x.id == m) ∘ (fun x ↦ if x.id = m then f x else x) =
      fun x ↦ x.id == m := by
    funext x
    rw [comp_apply]
    split
    · rw [hf]
    · rfl
  rw [hid]
  cases hx : s.members.find? (·.id == m) with
  | none => rfl
  | some x =>
    rw [map_some, map_some, if_pos (by simpa using find?_some hx)]

theorem member?_setState (hx : s.member? m = some x) (value : HealthState) :
    (s.setMember m fun x ↦ { x with state := value }).member? m =
      some { x with state := value } := by
  rw [member?_setMember (f := fun x ↦ { x with state := value }) fun _ ↦ rfl, hx, map_some]

theorem capacity_setMember (hids : (s.members.map Member.id).Nodup) (hx : s.member? m = some x) :
    (s.setMember m f).capacity + x.share = s.capacity + (f x).share := by
  obtain ⟨hid, xs, ys, heq, -⟩ := find?_eq_some_iff_append.1 hx
  have hid : x.id = m := beq_iff_eq.1 hid
  rw [heq, map_append, map_cons, nodup_middle, nodup_cons, ← map_append] at hids
  have hkeep {zs : List Member} (hzs : zs ⊆ xs ++ ys) :
      zs.map (fun x ↦ if x.id = m then f x else x) = zs := by
    conv_rhs => rw [← map_id zs]
    refine map_congr_left fun z hz ↦ if_neg fun hzm ↦ hids.1 ?_
    exact mem_map.mpr ⟨z, hzs hz, hzm.trans hid.symm⟩
  simp only [capacity, setMember, heq, map_append, map_cons, if_pos hid,
    hkeep (subset_append_left _ _), hkeep (subset_append_right _ _), sum_append,
    sum_cons]
  omega

/-- Every member has a name of its own. -/
structure Named (s : Cluster) : Prop where
  ids : (s.members.map Member.id).Nodup
  fresh : ∀ i ∈ s.members.map Member.id, i < s.fresh

theorem Named.congr (h : s.Named) (hids : s'.members.map Member.id = s.members.map Member.id)
    (hfresh : s'.fresh = s.fresh) : s'.Named := by
  refine ⟨hids ▸ h.ids, ?_⟩
  rw [hids, hfresh]
  exact h.fresh

theorem map_outline_eq (h : s'.outline = s.outline) {β : Type} {f : Member → β}
    (hf : ∀ x, f x.outline = f x) : s'.members.map f = s.members.map f := by
  have hmembers : s'.members.map Member.outline = s.members.map Member.outline :=
    congrArg (fun o ↦ o.2.2) h
  have hcomp : f ∘ .outline = f := funext hf
  rw [← hcomp, ← List.map_map, hmembers, List.map_map]

theorem Named.of_outline (h : s.Named) (heq : s'.outline = s.outline) : s'.Named :=
  h.congr (map_outline_eq heq fun _ ↦ rfl) (congrArg (fun o ↦ o.2.1) heq)

theorem Named.setMember (h : s.Named)
    (hid : ∀ x, x.id = m → (f x).id = m) : (s.setMember m f).Named := by
  refine h.congr ?_ rfl
  rw [Cluster.setMember, List.map_map]
  refine List.map_congr_left fun y _ ↦ ?_
  rw [comp_apply]
  split
  · next hy => rw [hid y hy, hy]
  · rfl

theorem Named.addMember (h : s.Named) (name : String) (capacity : ℕ) (enabled : Bool) :
    (s.addMember name capacity enabled).Named := by
  have hids : (s.addMember name capacity enabled).members.map Member.id =
      s.members.map Member.id ++ [s.fresh] := map_append
  refine ⟨?_, fun i hi ↦ ?_⟩
  · rw [hids, nodup_append]
    refine ⟨h.ids, nodup_singleton _, ?_⟩
    rintro i hi _ hj rfl
    rw [mem_singleton.mp hj] at hi
    exact absurd (h.fresh _ hi) (lt_irrefl _)
  · rw [hids] at hi
    rcases mem_append.mp hi with hi | hi
    · exact (h.fresh i hi).trans (Nat.lt_succ_self _)
    · rw [mem_singleton.mp hi]
      exact Nat.lt_succ_self _

theorem Named.removeMember (h : s.Named) (name : String) : (s.removeMember name).Named := by
  have hsub : ((s.removeMember name).members.map Member.id).Sublist (s.members.map Member.id) :=
    eraseP_sublist.map Member.id
  exact ⟨hsub.nodup h.ids, fun i hi ↦ h.fresh i (hsub.subset hi)⟩

/-- The number of tokens is in balance, the percentage of the root is the one it was created
with, and every member has a name of its own. -/
structure Steadied (s : Cluster) : Prop extends s.Named where
  balanced : s.Balanced
  fits : s.shaper.label.rate < 2 ^ 64
  percent : s.shaper.label.ratePercent = 1

theorem Steadied.congr (h : s.Steadied) (heq : s'.outline = s.outline) : s'.Steadied := by
  have hfigures : (s'.shaper.label.rate, s'.shaper.label.ratePercent) =
      (s.shaper.label.rate, s.shaper.label.ratePercent) := congrArg Prod.fst heq
  have hrate : s'.shaper.label.rate = s.shaper.label.rate := congrArg Prod.fst hfigures
  refine ⟨h.toNamed.of_outline heq, ?_, hrate ▸ h.fits, ?_⟩
  · rw [Balanced, capacity, map_outline_eq heq fun _ ↦ rfl]
    exact hrate.trans h.balanced
  · exact (congrArg Prod.snd hfigures).trans h.percent

/-- A number of tokens that the arithmetic of the shaper represents. -/
def Exact (n : ℕ) : Prop := n < 2 ^ 64 ∧ toFloat n = n

instance (n : ℕ) : Decidable (Exact n) := inferInstanceAs (Decidable (_ ∧ _))

variable {n : ℕ}

theorem exact_of_lt (h : n < 2 ^ 24) : Exact n := by
  have he : n.log2 - 23 = 0 := by
    rcases eq_or_ne n 0 with rfl | hn
    · decide
    · have := (Nat.log2_lt hn).mpr h
      omega
  refine ⟨by omega, ?_⟩
  simp [toFloat, he, Nat.mod_one]

theorem sub_of_le {a b : ℕ} (h : b ≤ a) : sub a b = (a - b) % 2 ^ 64 := by
  rw [sub]
  omega

theorem resize_cases (h : s.resize n = some s') (hp : s.shaper.label.ratePercent = 1) :
    ∃ t : TokenShaper.Tree ℕ, s' = { s with shaper := t } ∧ t.label.ratePercent = 1 ∧
      t.label.rate = if s.shaper.label.rate = n then n else toFloat n := by
  rw [resize] at h
  split at h
  · next hn =>
    cases h
    exact ⟨s.shaper, rfl, hp, by rw [if_pos hn, hn]⟩
  · next hn =>
    split at h
    · cases h
      refine ⟨_, rfl, hp, ?_⟩
      simp [refresh, portion, hp, hn]
    · cases h

theorem Steadied.setMember (h : s.Steadied)
    (hx : s.member? m = some x) (hid : ∀ x, x.id = m → (f x).id = m)
    (hlt : t.label.rate < 2 ^ 64) (hp : t.label.ratePercent = 1)
    (ht : t.label.rate + x.share = s.capacity + (f x).share) :
    ({ s.setMember m f with shaper := t } : Cluster).Steadied := by
  refine ⟨(h.toNamed.setMember hid).congr rfl rfl, ?_, hlt, hp⟩
  have hcapacity := capacity_setMember (f := f) h.ids hx
  have hrate : t.label.rate = (s.setMember m f).capacity := by omega
  exact hrate

theorem share_le (hx : s.member? m = some x) : x.share ≤ s.capacity :=
  single_le_sum (fun _ _ ↦ Nat.zero_le _) _ (mem_map_of_mem (member?_eq_some hx).1)

/-- A change of the health of a member. When it comes up the cluster must not disable it for
that, and the new number of tokens must be represented. -/
theorem Steadied.setState (h : s.Steadied) {value : HealthState} (hx : s.member? m = some x)
    (hup : x.enabled → x.state ≠ .online → value = .online →
      (c.stickyOfflineMode → x.capacity = 0) ∧ Exact (s.capacity + x.capacity))
    (hdown : x.enabled → x.state = .online → value ≠ .online → Exact (s.capacity - x.capacity))
    (hs : s.setState c m value = some s') : s'.Steadied := by
  rw [Cluster.setState, hx] at hs
  dsimp only at hs
  split at hs
  · cases hs
    exact h
  next hne =>
  have hx₁ := member?_setState hx value
  set s₁ := s.setMember m fun x ↦ { x with state := value }
  have hshaper : s₁.shaper = s.shaper := rfl
  have hmove {t : TokenShaper.Tree ℕ} (hlt : t.label.rate < 2 ^ 64) (hp : t.label.ratePercent = 1)
      (ht : t.label.rate + x.share = s.capacity + share { x with state := value }) :
      ({ s₁ with shaper := t } : Cluster).Steadied :=
    h.setMember (f := fun x ↦ { x with state := value }) hx (fun _ ↦ id) hlt hp ht
  have hstay (hshare : share { x with state := value } = x.share) : s₁.Steadied :=
    hmove h.fits h.percent (by rw [h.balanced, hshare])
  clear_value s₁
  rw [onHealthChanged, hx₁] at hs
  dsimp only at hs
  split at hs
  · next hdisabled =>
    cases hs
    exact hstay (by simp [share, hdisabled])
  next henabled =>
  rw [not_not] at henabled
  split at hs
  · next honline =>
    obtain ⟨hsticky, hexact⟩ := hup henabled (honline ▸ hne) honline
    have hadd : add s₁.shaper.label.rate x.capacity = s.capacity + x.capacity := by
      rw [add, hshaper, h.balanced, Nat.mod_eq_of_lt hexact.1]
    split at hs
    · cases hs
    next s₂ hresize =>
    obtain ⟨t, rfl, hp, ht⟩ := resize_cases hresize (hshaper ▸ h.percent)
    rw [hadd, hexact.2, ite_self] at ht
    have hs₂ : ({ s₁ with shaper := t } : Cluster).Steadied := by
      refine hmove (ht ▸ hexact.1) hp ?_
      simp [ht, share, henabled, honline, honline ▸ hne]
    split at hs
    · exact hs₂.congr (outline_dequeueTo hs)
    · next hmode =>
      cases hs
      refine hs₂.setMember (f := fun x ↦ { x with enabled := false }) hx₁ (fun _ ↦ id) hs₂.fits hp ?_
      rw [hs₂.balanced.symm]
      simp [share, hsticky (not_not.mp hmode)]
  next hdown' =>
  split at hs
  · next hold =>
    have hexact := hdown henabled hold hdown'
    have hle : x.capacity ≤ s.capacity := by
      simpa [share, henabled, hold] using share_le hx
    have hsub : sub s₁.shaper.label.rate x.capacity = s.capacity - x.capacity := by
      rw [hshaper, h.balanced, sub_of_le hle, Nat.mod_eq_of_lt hexact.1]
    obtain ⟨t, rfl, hp, ht⟩ := resize_cases hs (hshaper ▸ h.percent)
    rw [hsub, hexact.2, ite_self] at ht
    refine hmove (ht ▸ hexact.1) hp ?_
    simp only [ht, share, henabled, hold, hdown', and_self, and_false, if_true, if_false]
    omega
  · next hold =>
    cases hs
    exact hstay (by simp [share, hold, hdown'])

/-! ### Runs -/

/-- The changes that the cluster is told of, and takes into account: a member that is up is not
removed, enabled or disabled, nor taken out by the sticky offline mode, the capacity of an
enabled member changes while it is online, and the new number of tokens is represented. A
member without a capacity may do as it likes. -/
def Steady (c : Settings) (s : Cluster) : Action → Prop
  | .removeMember name => ∀ x, s.members.find? (·.name == name) = some x → x.share = 0
  | .setEnabled m value => ∀ x, s.member? m = some x →
      share { x with enabled := value } = x.share
  | .setCapacity m n => ∀ x, s.member? m = some x → x.enabled →
      if x.state = .online then Exact (s.capacity - x.capacity + n % 2 ^ 64)
      else x.capacity = n % 2 ^ 64
  | .logSuccess m => ∀ x, s.member? m = some x → x.enabled → x.state ≠ .online →
      c.healthCheckSuccessThreshold ≤ x.consecutiveSuccessCount + 1 →
      (c.stickyOfflineMode → x.capacity = 0) ∧ Exact (s.capacity + x.capacity)
  | .logFailure m | .failed _ m _ => ∀ x, s.member? m = some x → x.enabled →
      x.state = .online → Exact (s.capacity - x.capacity)
  | _ => True

theorem Steadied.setCapacity (h : s.Steadied) (hok : Steady c s (.setCapacity m n))
    (hs : s.setCapacity m n = some s') : s'.Steadied := by
  rw [Cluster.setCapacity] at hs
  split at hs
  · cases hs
  next x hx =>
  have hid := (member?_eq_some hx).2
  have hmove {t : TokenShaper.Tree ℕ} (hlt : t.label.rate < 2 ^ 64)
      (hp : t.label.ratePercent = 1) (ht : t.label.rate + x.share =
        s.capacity + share { x with capacity := n % 2 ^ 64 }) :
      ({ s.setMember m (fun _ ↦ { x with capacity := n % 2 ^ 64 }) with shaper := t } :
        Cluster).Steadied :=
    h.setMember (f := fun _ ↦ { x with capacity := n % 2 ^ 64 }) hx (fun _ _ ↦ hid) hlt hp ht
  rw [onCapacityChanged] at hs
  dsimp only at hs
  split at hs
  · next henabled =>
    have hn := hok x hx henabled
    obtain ⟨t, rfl, hp, ht⟩ := resize_cases hs h.percent
    have hrate : (s.setMember m fun _ ↦ { x with capacity := n % 2 ^ 64 }).shaper.label.rate =
        s.capacity := h.balanced
    rw [hrate] at ht
    split at hn
    · next honline =>
      have hle : x.capacity ≤ s.capacity := by
        simpa [share, henabled, honline] using share_le hx
      have hadd : add (sub s.capacity x.capacity) (n % 2 ^ 64) =
          s.capacity - x.capacity + n % 2 ^ 64 := by
        rw [sub_of_le hle, add, Nat.mod_add_mod, Nat.mod_eq_of_lt hn.1]
      rw [hadd, hn.2, ite_self] at ht
      refine hmove (ht ▸ hn.1) hp ?_
      simp only [ht, share, henabled, honline, and_self, if_true]
      omega
    · next hoffline =>
      have hfits : s.capacity < 2 ^ 64 := h.balanced ▸ h.fits
      have hadd : add (sub s.capacity x.capacity) (n % 2 ^ 64) = s.capacity := by
        rw [hn, sub, add]
        omega
      rw [hadd, if_pos rfl] at ht
      refine hmove (ht ▸ hfits) hp ?_
      simp [ht, share, hoffline]
  · next hdisabled =>
    cases hs
    refine hmove h.fits h.percent ?_
    rw [h.balanced]
    simp [share, hdisabled]

theorem Steadied.removeMember (h : s.Steadied) {name : String}
    (hok : Steady c s (.removeMember name)) : (s.removeMember name).Steadied := by
  refine ⟨h.toNamed.removeMember name, ?_, h.fits, h.percent⟩
  suffices hsum : ∀ xs : List Member, (∀ x, xs.find? (·.name == name) = some x → x.share = 0) →
      ((xs.eraseP (·.name == name)).map share).sum = (xs.map share).sum from
    h.balanced.trans (hsum s.members hok).symm
  intro xs
  induction xs with
  | nil => exact fun _ ↦ rfl
  | cons x xs ih =>
    intro hxs
    by_cases hname : x.name = name
    · have hzero := hxs x (by simp [hname])
      simp [hname, hzero]
    · have hrest := ih fun y hy ↦ hxs y (by simpa [hname] using hy)
      simp [hname, hrest]

theorem Steadied.logSuccess (h : s.Steadied) (hok : Steady c s (.logSuccess m))
    (hs : s.logSuccess c m = some s') : s'.Steadied := by
  rw [Cluster.logSuccess] at hs
  split at hs
  · cases hs
  next x hx =>
  obtain ⟨f, hf⟩ : ∃ f : Member → Member, f = fun y ↦
      { y with consecutiveSuccessCount := x.consecutiveSuccessCount + 1 } := ⟨_, rfl⟩
  have h₁ : (s.setMember m f).Steadied :=
    h.congr (outline_setMember fun y ↦ by rw [hf]; rfl)
  have hcapacity : (s.setMember m f).capacity = s.capacity := h₁.balanced.symm.trans h.balanced
  dsimp only at hs
  rw [← hf] at hs
  split at hs
  · next hcond =>
    have hx₁ : (s.setMember m f).member? m = some (f x) := by
      rw [member?_setMember fun y ↦ by rw [hf], hx, map_some]
    refine h₁.setState hx₁ (fun henabled hstate _ ↦ ?_) (fun _ hstate ↦ ?_) hs
    · rw [hcapacity, hf]
      exact hok x hx (by simpa [hf] using henabled) hcond.2 hcond.1
    · exact absurd (by simpa [hf] using hstate) hcond.2
  · cases hs
    exact h₁

theorem Steadied.setOffline (h : s.Steadied) (hf : ∀ x, (f x).outline = x.outline)
    (hok : ∀ x, s.member? m = some x → x.enabled → x.state = .online →
      Exact (s.capacity - x.capacity))
    (hs : (s.setMember m f).setState c m .offline = some s') : s'.Steadied := by
  have h₁ : (s.setMember m f).Steadied := h.congr (outline_setMember hf)
  have hcapacity : (s.setMember m f).capacity = s.capacity := h₁.balanced.symm.trans h.balanced
  have hfield {β : Type} (g : Member → β) (hg : ∀ x, g x.outline = g x) (x : Member) :
      g (f x) = g x := by
    rw [← hg, hf, hg]
  have hx₁ : (s.setMember m f).member? m = (s.member? m).map f :=
    member?_setMember (hfield Member.id fun _ ↦ rfl)
  cases hx : s.member? m with
  | none =>
    rw [Cluster.setState, hx₁, hx] at hs
    cases hs
  | some x =>
    rw [hx, map_some] at hx₁
    refine h₁.setState hx₁ (fun _ _ hvalue ↦ by cases hvalue) (fun henabled hstate _ ↦ ?_) hs
    rw [hfield enabled fun _ ↦ rfl] at henabled
    rw [hfield state fun _ ↦ rfl] at hstate
    rw [hcapacity, hfield Member.capacity fun _ ↦ rfl]
    exact hok x hx henabled hstate

theorem Steadied.step {a : Action} (h : s.Steadied) (hok : Steady c s a)
    (hs : s.step c a = some s') : s'.Steadied := by
  cases a with
  | addMember name capacity enabled =>
    cases hs
    refine ⟨h.toNamed.addMember name capacity enabled, ?_, h.fits, h.percent⟩
    rw [Balanced, Cluster.capacity, addMember, map_append, sum_append, map_singleton, sum_singleton]
    exact h.balanced.trans (by simp [share, Cluster.capacity])
  | removeMember name =>
    cases hs
    exact h.removeMember hok
  | setEnabled m value =>
    obtain ⟨x, hx, rfl⟩ := map_eq_some_iff.mp hs
    refine h.setMember (f := fun x ↦ { x with enabled := value }) hx (fun _ ↦ id) h.fits h.percent ?_
    rw [h.balanced, hok x hx]
  | setCapacity m n => exact h.setCapacity hok hs
  | createBucket name rate ceil =>
    cases hs
    have hlabel : (createChild [] name rate ceil s.shaper).2.label = s.shaper.label := by
      obtain ⟨v, hv, -, -, -, ht⟩ | ⟨e, -, ht⟩ :=
        createChild_cases [] name rate ceil s.shaper
      · rw [ht]
        rfl
      · rw [ht]
    refine h.congr ?_
    rw [outline, hlabel]
    rfl
  | logSuccess m => exact h.logSuccess hok hs
  | logFailure m =>
    exact h.setOffline (f := fun x ↦ { x with consecutiveSuccessCount := 0 }) (fun _ ↦ rfl) hok hs
  | schedule p clock => exact h.congr (outline_schedule hs)
  | responded r m status =>
    obtain ⟨-, hs⟩ := ite_none_right_eq_some.1 hs
    rw [onResponseReceived] at hs
    split at hs
    · cases hs
    · refine h.congr ((outline_onMessageEnd hs).trans ?_)
      exact outline_setMember (s := s) (f := fun x ↦ { x with load := x.load - 1 }) fun _ ↦ rfl
  | failed r m clock =>
    obtain ⟨-, hs⟩ := ite_none_right_eq_some.1 hs
    obtain ⟨s₁, hs₁, hs⟩ := bind_eq_some_iff.mp hs
    obtain ⟨s₂, hs₂, rfl⟩ := map_eq_some_iff.mp hs₁
    have h₀ : ({ s with processing := s.processing.erase (r, m) }.observe
        (.failed r m)).Steadied := h.congr rfl
    have h₂ : s₂.Steadied :=
      h₀.setOffline (f := fun x ↦ { x with load := x.load - 1 }) (fun _ ↦ rfl) hok hs₂
    exact h₂.congr ((outline_onProcessingFailed hs).trans rfl)
  | runTask i clock =>
    rw [Cluster.step] at hs
    split at hs
    · cases hs
    · exact h.congr ((outline_runTask hs).trans rfl)
  | updateQueueTimer p now =>
    obtain ⟨bucket, -, rfl⟩ := map_eq_some_iff.mp hs
    refine h.congr (outline_shaper (s := s) ?_)
    exact map_mapAt (f := figures) (g := Node.updateQueueTimer now) (fun _ ↦ rfl) p _

/-- **The tokens of a cluster are the capacity of the members that are up**, in every run
whose changes the cluster takes into account. -/
theorem balanced_of_reach (h : (clusters c).Reach (Steady c) s) : s.Balanced := by
  have hsteadied : s.Steadied := by
    induction h with
    | init => exact ⟨⟨nodup_nil, nofun⟩, rfl, Nat.two_pow_pos 64, rfl⟩
    | step _ hok hs ih => exact ih.step hok hs
  exact hsteadied.balanced

/-- A cluster that takes a member for online after one successful check, and does not retry. -/
def eager : Settings := { healthCheckSuccessThreshold := 1, maxRetryCount := 0 }

/-- A member of capacity one: its health, the checks that it passed and its requests. -/
def lone (state : HealthState) (checks load : ℕ) : Member where
  id := 0
  name := "a"
  capacity := 1
  enabled := true
  load := load
  state := state
  consecutiveSuccessCount := checks

/-- A shaper without buckets: its tokens, those that are taken, and the requests that wait. -/
def root (rate actual : ℕ) (queue : List ℕ) : TokenShaper.Tree ℕ :=
  .node ⟨"root", rate, rate, 1, 1, actual, queue.map fun r ↦ ⟨r, 0⟩, 0⟩ []

/-- A cluster with one member, and the number of its tokens. -/
def single (rate : ℕ) (x : Member) : Cluster where
  shaper := root rate 0 []
  members := [x]
  fresh := 1

theorem resize_root {rate actual : ℕ} {queue : List ℕ} (hs : s.shaper = root rate actual queue)
    (h : n < 2 ^ 24) : s.resize n = some { s with shaper := root n actual queue } := by
  obtain ⟨hlt, hfloat⟩ := exact_of_lt h
  rw [resize, hs]
  split
  · next hrate =>
    rw [← show rate = n from hrate, ← hs]
  · rw [if_pos (hfloat.symm ▸ hlt)]
    simp [root, hfloat, refresh, portion, descendAll]

section

variable {x : Member} {rate actual : ℕ} {queue : List ℕ} (hx : s.member? m = some x)
include hx

theorem setState_online (hstate : x.state ≠ .online) (henabled : x.enabled)
    (hsticky : c.stickyOfflineMode = false) (hs : s.shaper = root rate actual queue)
    (hrate : rate + x.capacity < 2 ^ 24) :
    s.setState c m .online = dequeueTo m { s with
      members := (s.setMember m fun x ↦ { x with state := .online }).members
      shaper := root (rate + x.capacity) actual queue } := by
  have hx₁ := member?_setState hx .online
  set s₁ := s.setMember m fun x ↦ { x with state := .online }
  have hshaper : s₁.shaper = root rate actual queue := hs
  have hadd : add s₁.shaper.label.rate x.capacity = rate + x.capacity := by
    rw [hshaper, add, Nat.mod_eq_of_lt]
    · rfl
    · exact hrate.trans (by decide)
  rw [setState, hx]
  dsimp only
  rw [if_neg hstate, onHealthChanged, hx₁]
  dsimp only
  rw [if_neg (not_not_intro henabled), if_pos rfl, hadd, resize_root hshaper hrate]
  dsimp only
  rw [if_pos (by simp [hsticky])]
  rfl

theorem setState_offline (hstate : x.state = .online) (henabled : x.enabled)
    (hs : s.shaper = root rate actual queue) (hle : x.capacity ≤ rate) (hrate : rate < 2 ^ 24) :
    s.setState c m .offline = some { s with
      members := (s.setMember m fun x ↦ { x with state := .offline }).members
      shaper := root (rate - x.capacity) actual queue } := by
  have hx₁ := member?_setState hx .offline
  set s₁ := s.setMember m fun x ↦ { x with state := .offline }
  have hshaper : s₁.shaper = root rate actual queue := hs
  have hlt : rate - x.capacity < 2 ^ 24 := (Nat.sub_le _ _).trans_lt hrate
  have hsub : sub s₁.shaper.label.rate x.capacity = rate - x.capacity := by
    rw [hshaper]
    exact (sub_of_le hle).trans (Nat.mod_eq_of_lt (hlt.trans (by decide)))
  rw [setState, hx]
  dsimp only
  rw [if_neg (by rw [hstate]; decide), onHealthChanged, hx₁]
  dsimp only
  rw [if_neg (not_not_intro henabled), if_neg (by decide), if_pos hstate, hsub,
    resize_root hshaper hlt]
  rfl

end

theorem reach_single {ok : Cluster → Action → Prop}
    (hadd : ok (clusters eager).init (.addMember "a" 1 true))
    (hup : ok (single 0 (lone .undefined 0 0)) (.logSuccess 0)) :
    (clusters eager).Reach ok (single 1 (lone .online 1 0)) := by
  have hadded : (clusters eager).Reach ok (single 0 (lone .undefined 0 0)) :=
    TransitionSystem.Reach.init.step (a := .addMember "a" 1 true) hadd rfl
  refine hadded.step (a := .logSuccess 0) hup ?_
  have hshaper : (single 0 (lone .undefined 1 0)).shaper = root 0 0 [] := rfl
  exact setState_online (c := eager) (m := 0) (x := lone .undefined 1 0) rfl (by decide) rfl rfl
    hshaper (by decide)

theorem balanced_single : (single 1 (lone .online 1 0)).Balanced := by
  refine balanced_of_reach (reach_single trivial fun x hx _ _ _ ↦ ?_)
  cases hx
  exact ⟨nofun, exact_of_lt (by decide)⟩

/-- Nobody tells the cluster that a member is disabled. -/
theorem not_balanced : ¬ ∀ (c : Settings) (s : Cluster),
    (clusters c).Reach (fun _ _ ↦ True) s → s.Balanced := by
  intro h
  have hdisabled : (clusters eager).Reach (fun _ _ ↦ True)
      (single 1 { lone .online 1 0 with enabled := false }) :=
    (reach_single trivial trivial).step (a := .setEnabled 0 false) trivial rfl
  exact absurd (h _ _ hdisabled) (by decide)

end Cluster

end Xzero.Http.Client
