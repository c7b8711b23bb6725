import Xzero.Http.Decoding

/-!
# Paths that climb above the document root

`setUri` counts how deep the path leads: one more at the first byte of a segment that is not `.` or
`..`, one less at the slash after `..`, and the URI is refused if the count was below zero. The
count never exceeds what the segments after the first one give (`Deep`), so that **all segments
but the first and the last are counted right** (`Deep.scan`).

The first segment of a path that does not begin with a slash is not looked at, and a last segment
`..` is not counted, as no slash comes after it. **An accepted path stays below the root exactly if
its first segment is not `..`, and a last segment `..` does not lead above the root** (`safe_iff`).
-/

namespace Xzero.Http

open List Util Option PathState Scan

/-! ### Segments -/

/-- The segments of a path that end with a slash, and what comes after the last slash. -/
def split (path : Bytes) : List Bytes × Bytes :=
  path.foldl (fun s c ↦ if c = '/'.toUInt8 then (s.1 ++ [s.2], []) else (s.1, s.2 ++ [c])) ([], [])

def segments (path : Bytes) : List Bytes := (split path).1 ++ [(split path).2]

/-- The segment `..`. -/
def up : Bytes := ['.'.toUInt8, '.'.toUInt8]

/-- The segment is not empty, `.` or `..`. -/
def ordinary (segment : Bytes) : Bool := segment ≠ [] && segment ≠ ['.'.toUInt8] && segment ≠ up

/-- No front of the segments has more `..` than ordinary segments. -/
def Safe (path : Bytes) : Prop := ∀ l, l <+: segments path → l.count up ≤ l.countP ordinary

def balance (l : List Bytes) : Int := l.countP ordinary - l.count up

/-- The first segment is not `..`, and if the last one is, the segments do not lead above the root.
-/
def Grounded (path : Bytes) : Prop :=
  (segments path).head? ≠ some up ∧
    ((segments path).getLast? = some up → 0 ≤ balance (segments path))

section Segments

variable {l l' : List Bytes} {s path : Bytes} {c : UInt8}

theorem split_concat (path : Bytes) (c : UInt8) : split (path ++ [c]) =
    if c = '/'.toUInt8 then ((split path).1 ++ [(split path).2], [])
    else ((split path).1, (split path).2 ++ [c]) :=
  foldl_concat ..

@[simp] theorem balance_append : balance (l ++ l') = balance l + balance l' := by
  rw [balance, balance, balance, countP_append, count_append]
  omega

theorem balance_up : balance [up] = -1 := by decide

theorem balance_nonneg_of_ne (hs : s ≠ up) : 0 ≤ balance [s] := by
  rw [balance, count_singleton, if_neg (by simpa using hs)]
  omega

theorem balance_of_ordinary (hs : ordinary s = true) : balance [s] = 1 := by
  have hne : s ≠ up := by
    rintro rfl
    cases hs
  rw [balance, count_singleton, if_neg (by simpa using hne), countP_singleton, if_pos hs]
  rfl

theorem safe_iff_balance : Safe path ↔ ∀ l, l <+: segments path → 0 ≤ balance l := by
  refine forall_congr' fun l ↦ forall_congr' fun _ ↦ ?_
  rw [balance]
  omega

theorem ordinary_iff : ordinary s = true ↔ s ≠ [] ∧ s ≠ ['.'.toUInt8] ∧ s ≠ up := by
  simp [ordinary, and_assoc]

theorem ordinary_concat : ordinary (s ++ [c]) = true ↔
    ¬(c = '.'.toUInt8 ∧ (s = [] ∨ s = ['.'.toUInt8])) := by
  have hconcat : ∀ (t : Bytes) (d : UInt8), s ++ [c] = t ++ [d] ↔ s = t ∧ c = d := by simp
  have hdot : s ++ [c] = ['.'.toUInt8] ↔ s = [] ∧ c = '.'.toUInt8 := hconcat [] _
  have hup : s ++ [c] = up ↔ s = ['.'.toUInt8] ∧ c = '.'.toUInt8 := hconcat ['.'.toUInt8] _
  have hnil : s ++ [c] ≠ [] := by simp
  rw [ordinary_iff, Ne, Ne, Ne, hdot, hup]
  tauto

/-- What comes after the last slash, by the state after the path. -/
def Fits (state : PathState) (split : List Bytes × Bytes) : Prop :=
  match state with
  | .content => split.1 = [] ∨ ordinary split.2 = true
  | .slash => split.1 ≠ [] ∧ split.2 = []
  | .dot => split.1 ≠ [] ∧ split.2 = ['.'.toUInt8]
  | .dotDot => split.1 ≠ [] ∧ split.2 = up

theorem Fits.next {state : PathState} {closed : List Bytes} {current : Bytes}
    (h : Fits state (closed, current)) (c : UInt8) : Fits (state.next c)
      (if c = '/'.toUInt8 then (closed ++ [current], []) else (closed, current ++ [c])) := by
  by_cases hslash : c = '/'.toUInt8
  · rw [(next_eq_iff state c).1.2 hslash, if_pos hslash]
    exact ⟨concat_ne_nil _ _, rfl⟩
  rw [if_neg hslash]
  by_cases hdot : c = '.'.toUInt8
  · subst hdot
    cases state with
    | slash | dot =>
      obtain ⟨hne, rfl⟩ := h
      exact ⟨hne, rfl⟩
    | content =>
      refine .imp_right (fun hord ↦ ordinary_concat.2 ?_) h
      obtain ⟨hnil, hdot, -⟩ := ordinary_iff.1 hord
      exact fun h ↦ h.2.elim hnil hdot
    | dotDot =>
      obtain ⟨-, rfl⟩ := h
      exact .inr rfl
  · have hnext : state.next c = .content := by simp [PathState.next, hslash, hdot]
    rw [hnext]
    exact .inr (ordinary_concat.2 fun h ↦ hdot h.1)

theorem fits_after (path : Bytes) : Fits (.after path) (split path) := by
  induction path using reverseRecOn with
  | nil => exact .inl rfl
  | append_singleton path c ih =>
    rw [after_concat, split_concat]
    exact ih.next c

end Segments

/-! ### The count -/

/-- The depth that is counted is no more than that of the segments between the first slash and the
last one, and one more for an ordinary segment that is begun; none of these leads above the root. -/
def Counted (path : Bytes) (depth minDepth extra : Int) : Prop :=
  0 ≤ minDepth → ∃ d : Int, depth = wrap d ∧ 0 ≤ d ∧ d ≤ balance (split path).1.tail + extra ∧
    ∀ l, l <+: (split path).1.tail → 0 ≤ balance l

/-- What may have been counted for the segment that is begun. -/
def PathState.extra : PathState → Bytes → Int
  | .content, path => if (split path).1 = [] then 0 else 1
  | _, _ => 0

section Count

variable {path : Bytes} {depth minDepth extra extra' : Int} {c : UInt8}

theorem Counted.push (h : Counted path depth minDepth extra) (hc : c ≠ '/'.toUInt8)
    (hle : extra ≤ extra') : Counted (path ++ [c]) depth minDepth extra' := by
  intro hmin
  obtain ⟨d, hd, hpos, hbound, hsafe⟩ := h hmin
  rw [split_concat, if_neg hc]
  exact ⟨d, hd, hpos, by dsimp only; omega, hsafe⟩

theorem Counted.safe (h : Counted path depth minDepth extra) (hmin : 0 ≤ minDepth) :
    ∀ l, l <+: (split path).1.tail → 0 ≤ balance l := by
  obtain ⟨-, -, -, -, hsafe⟩ := h hmin
  exact hsafe

theorem wrap_add (d e : Int) : wrap (wrap d + e) = wrap (d + e) := Int.bmod_add_bmod ..

theorem Counted.deeper (h : Counted path depth minDepth extra) (hle : extra + 1 ≤ extra') :
    Counted path (wrap (depth + 1)) minDepth extra' := by
  intro hmin
  obtain ⟨d, rfl, hpos, hbound, hsafe⟩ := h hmin
  exact ⟨d + 1, wrap_add d 1, by omega, by omega, hsafe⟩

theorem safe_concat {l : List Bytes} {s : Bytes} (hsafe : ∀ l', l' <+: l → 0 ≤ balance l')
    (hs : 0 ≤ balance (l ++ [s])) : ∀ l', l' <+: l ++ [s] → 0 ≤ balance l' := by
  intro l' hl'
  rcases prefix_concat_iff.1 hl' with rfl | hl'
  · exact hs
  · exact hsafe l' hl'

theorem Counted.close (h : Counted path depth minDepth extra)
    (hfirst : (split path).1 = [] → extra ≤ 0)
    (hextra : (split path).1 ≠ [] → extra ≤ balance [(split path).2]) :
    Counted (path ++ ['/'.toUInt8]) depth minDepth 0 := by
  intro hmin
  obtain ⟨d, hd, hpos, hbound, hsafe⟩ := h hmin
  rw [split_concat, if_pos rfl]
  by_cases hnil : (split path).1 = []
  · rw [hnil] at hbound hsafe ⊢
    have hle := hfirst hnil
    exact ⟨d, hd, hpos, by change d ≤ 0 + 0; change d ≤ 0 + extra at hbound; omega, hsafe⟩
  · have hle := hextra hnil
    rw [tail_append_of_ne_nil hnil]
    refine ⟨d, hd, hpos, ?_, safe_concat hsafe ?_⟩
    · rw [balance_append]
      omega
    · rw [balance_append]
      omega

theorem Counted.higher (h : Counted path depth minDepth 0) (hne : (split path).1 ≠ [])
    (hup : (split path).2 = up) :
    Counted (path ++ ['/'.toUInt8]) (wrap (depth - 1)) (min (wrap (depth - 1)) minDepth) 0 := by
  intro hmin
  obtain ⟨hdepth, hmin⟩ := le_min_iff.1 hmin
  obtain ⟨d, rfl, hpos, hbound, hsafe⟩ := h hmin
  have hwrap : wrap (wrap d - 1) = wrap (d - 1) := wrap_add d (-1)
  rw [hwrap] at hdepth ⊢
  -- below zero, the count would be seen to be
  have hd : 1 ≤ d := by
    by_contra hlt
    obtain rfl : d = 0 := by omega
    exact absurd hdepth (by decide)
  rw [split_concat, if_pos rfl, hup]
  rw [tail_append_of_ne_nil hne]
  have hbalance : balance ((split path).1.tail ++ [up]) = balance (split path).1.tail - 1 := by
    rw [balance_append, balance_up]
    rfl
  exact ⟨d - 1, rfl, by omega, by omega, safe_concat hsafe (by omega)⟩

end Count

/-- What the loop has counted, in each of its states. -/
def Deep (s : Scan) : Prop :=
  match s.state with
  | .path state | .quoteStart state | .quoteChar2 state _ =>
    state = .after s.path ∧ Counted s.path s.depth s.minDepth (state.extra s.path)
  | .queryStart => 0 ≤ s.minDepth → ∀ l, l <+: (split s.path).1.tail → 0 ≤ balance l

variable {path : Bytes}

theorem extra_content (hne : (split path).1 ≠ []) : content.extra path = 1 :=
  if_neg hne

theorem extra_concat (state : PathState) {c : UInt8} (hc : c ≠ '/'.toUInt8) :
    state.extra (path ++ [c]) = state.extra path := by
  cases state with
  | content => rw [extra, extra, split_concat, if_neg hc]
  | _ => rfl

theorem extra_le (state : PathState) (path : Bytes) : state.extra path ≤ content.extra path := by
  have hpos : 0 ≤ content.extra path := by
    rw [extra]
    split <;> decide
  cases state with
  | content => exact le_rfl
  | _ => exact hpos

variable {s : Scan} {state : PathState}

theorem counted_dispatch {ch : UInt8}
    (hcount : Counted s.path s.depth s.minDepth (state.extra s.path))
    (hfits : Fits state (split s.path)) (hch : ch ≠ '%'.toUInt8)
    (hmark : ch = '?'.toUInt8 → state = .dotDot) :
    Counted (s.path ++ [ch]) (s.dispatch ch state).depth (s.dispatch ch state).minDepth
      ((state.next ch).extra (s.path ++ [ch])) := by
  by_cases hslash : ch = '/'.toUInt8
  · subst hslash
    cases state with
    | content =>
      refine hcount.close (fun hnil ↦ (if_pos hnil).le) fun hne ↦ ?_
      rw [extra_content hne, balance_of_ordinary (hfits.resolve_left hne)]
    | slash | dot =>
      refine hcount.close (fun _ ↦ le_rfl) fun _ ↦ ?_
      rw [hfits.2]
      exact balance_nonneg_of_ne (by decide)
    | dotDot => exact hcount.higher hfits.1 hfits.2
  rw [extra_concat _ hslash]
  by_cases hdot : ch = '.'.toUInt8
  · subst hdot
    cases state with
    | dotDot => exact (hcount.push hslash le_rfl).deeper (extra_content hfits.1).ge
    | _ => exact hcount.push hslash le_rfl
  · have hnext : state.next ch = .content := by simp [PathState.next, hslash, hdot]
    have heq : s.dispatch ch state =
        if state = .content then s.push ch .content else (s.push ch .content).deeper := by
      by_cases hq : ch = '?'.toUInt8
      · rw [hmark hq]
        simp [dispatch, hslash, hch]
      · cases state <;> simp [dispatch, hslash, hdot, hch, hq]
    rw [hnext, heq]
    have hpush := hcount.push hslash le_rfl
    cases state with
    | content => exact hpush
    | slash | dot | dotDot => exact hpush.deeper (extra_content hfits.1).ge

theorem minDepth_dispatch_mark (s : Scan) (hstate : state ≠ .dotDot) :
    (s.dispatch '?'.toUInt8 state).minDepth = s.minDepth := by
  cases state with
  | dotDot => exact absurd rfl hstate
  | _ => rfl

theorem Deep.safe (hs : Deep s) (hmin : 0 ≤ s.minDepth) :
    ∀ l, l <+: (split s.path).1.tail → 0 ≤ balance l := by
  rw [Deep] at hs
  split at hs
  · exact hs.2.safe hmin
  · exact hs.2.safe hmin
  · exact hs.2.safe hmin
  · exact hs hmin

/-- **A byte of the path** keeps the count. -/
theorem Deep.dispatch (ch : UInt8) (hstate : state = .after s.path)
    (hcount : Counted s.path s.depth s.minDepth (state.extra s.path)) :
    Deep (s.dispatch ch state) := by
  by_cases hch : ch = '%'.toUInt8
  · rw [hch, dispatch_percent]
    exact ⟨hstate, hcount⟩
  rcases dispatch_spec s state hch with ⟨rfl, hne, hst, hpath⟩ | ⟨hmark, hpath, hst⟩
  · rw [Deep, hst, hpath, minDepth_dispatch_mark s hne]
    exact hcount.safe
  · rw [Deep, hst, hpath]
    have hfits := fits_after s.path
    rw [← hstate] at hfits
    exact ⟨by rw [after_concat, hstate], counted_dispatch hcount hfits hch hmark⟩

/-- **The loop** keeps the count. -/
theorem Deep.scan {rest : Bytes} {s s' : Scan} {query : Option Bytes} (hs : Deep s)
    (hscan : scan s rest = .done s' query) (hmin : 0 ≤ s'.minDepth) :
    ∀ l, l <+: (split s'.path).1.tail → 0 ≤ balance l := by
  induction rest generalizing s with
  | nil =>
    rw [Http.scan] at hscan
    split at hscan
    · cases hscan
    · cases hscan
    · cases hscan
      exact hs.safe hmin
  | cons ch rest ih =>
    rw [Http.scan] at hscan
    rw [Deep] at hs
    split at hscan
    · next state hst =>
      rw [hst] at hs
      exact ih (Deep.dispatch ch hs.1 hs.2) hscan
    · next state hst =>
      rw [hst] at hs
      split at hscan
      · refine ih ?_ hscan
        exact hs
      · cases hscan
    · next state d hst =>
      rw [hst] at hs
      split at hscan
      · next x hx =>
        split at hscan
        · cases hscan
        · split at hscan
          · next hpercent =>
            refine ih ?_ hscan
            subst hpercent
            refine ⟨?_, hs.2.push (by decide) ?_⟩
            · rw [push, after_concat]
              rfl
            · rw [push, extra_concat _ (by decide)]
              exact extra_le state s.path
          · exact ih (Deep.dispatch x hs.1 hs.2) hscan
      · cases hscan
    · next hst =>
      rw [hst] at hs
      split at hscan
      · exact ih (by rwa [Deep, hst]) hscan
      · cases hscan
        exact hs hmin

/-! ### Accepted paths -/

theorem safe_iff_grounded
    (hsafe : ∀ l, l <+: (split path).1.tail → 0 ≤ balance l) : Safe path ↔ Grounded path := by
  rw [safe_iff_balance, Grounded, segments, getLast?_concat]
  rcases hsplit : (split path).1 with - | ⟨first, inner⟩
  · rw [nil_append]
    constructor
    · intro hall
      have hne : (split path).2 ≠ up := by
        intro heq
        have hbalance := hall _ prefix_rfl
        rw [heq, balance_up] at hbalance
        cases hbalance
      exact ⟨fun h ↦ hne (some.inj h), fun h ↦ absurd (some.inj h) hne⟩
    · intro hgrounded l hl
      rw [← nil_append [_]] at hl
      rcases prefix_concat_iff.1 hl with rfl | hl'
      · exact balance_nonneg_of_ne fun heq ↦ hgrounded.1 (congrArg some heq)
      · rw [prefix_nil.1 hl']
        exact le_rfl
  · rw [hsplit, tail_cons] at hsafe
    have hcons : ∀ l : List Bytes, balance (first :: l) = balance [first] + balance l := by
      intro l
      rw [← balance_append]
      rfl
    constructor
    · intro hall
      refine ⟨fun h ↦ ?_, fun _ ↦ hall _ prefix_rfl⟩
      have hbalance := hall [first] (prefix_append [first] _)
      rw [some.inj h, balance_up] at hbalance
      cases hbalance
    · rintro ⟨hfirst, hlast⟩ l hl
      have hpos := balance_nonneg_of_ne fun heq ↦ hfirst (congrArg some heq)
      rcases l with - | ⟨s, l⟩
      · exact le_rfl
      obtain ⟨rfl, hl'⟩ := cons_prefix_cons.1 hl
      rcases prefix_concat_iff.1 hl' with rfl | hl'
      · by_cases hup : (split path).2 = up
        · exact hlast (congrArg some hup)
        · have hinner := hsafe inner prefix_rfl
          have hend := balance_nonneg_of_ne hup
          rw [hcons, balance_append]
          omega
      · have hfront := hsafe l hl'
        rw [hcons]
        omega

variable {p p' u : Bytes}

/-- A walk through the URI that goes on behind another one goes through a question mark that the
other one could not. -/
theorem Walk.not_longer {w m r : Bytes} (h : Walk u p) (h' : Walk (u ++ w) p') (hw : w ≠ [])
    (hm : Mark m) (hafter : after p ≠ .dotDot) (heq : w <+: m ++ r) : False := by
  have hend : ∀ q, Walk u q → after q = .dotDot → False := by
    intro q hq hdot
    rw [hq.reads.unique h.reads] at hdot
    exact hafter hdot
  obtain ⟨c, w, rfl⟩ := exists_cons_of_ne_nil hw
  cases hm with
  | letter =>
    obtain ⟨rfl, -⟩ := cons_prefix_cons.1 heq
    obtain ⟨q, hq, hdot⟩ := h'.of_letter rfl
    exact hend q hq hdot
  | @escape a b hread =>
    obtain ⟨rfl, hrest⟩ := cons_prefix_cons.1 heq
    obtain ⟨p₁, p₂, -, h₂, -⟩ := h'.reads.cut (readByte_eq_none rfl)
    cases h₂ with
    | cons hne => exact absurd rfl hne
    | escape =>
      obtain ⟨rfl, hrest'⟩ := cons_prefix_cons.1 hrest
      obtain ⟨rfl, -⟩ := cons_prefix_cons.1 hrest'
      obtain ⟨q, hq, hdot⟩ := h'.of_escape rfl hread
      exact hend q hq hdot

variable {uri : Bytes} {query : Option Bytes}

theorem Ends.isPrefix (h : Ends uri u path query) : u <+: uri := by
  rcases h with ⟨rfl, -⟩ | ⟨m, r, rfl, -⟩
  · exact prefix_rfl
  · rw [append_assoc]
    exact prefix_append u _

theorem Ends.eq {u' : Bytes} (h : Ends uri u p query)
    (hwalk : Walk u p) (hwalk' : Walk u' p') (hu' : u' <+: uri) (hle : u <+: u') : p = p' := by
  obtain ⟨w, rfl⟩ := hle
  by_cases hw : w = []
  · subst hw
    rw [append_nil] at hwalk'
    exact hwalk.reads.unique hwalk'.reads
  · rcases h with ⟨rfl, -⟩ | ⟨m, r, rfl, hm, hafter, -⟩
    · have hlen := hu'.length_le
      rw [length_append] at hlen
      exact absurd (length_eq_zero_iff.1 (by omega)) hw
    · rw [append_assoc, prefix_append_right_inj] at hu'
      exact (hwalk.not_longer hwalk' hw hm hafter hu').elim

theorem Target.unique {query' : Option Bytes} (h : Target uri p query)
    (h' : Target uri p' query') : p = p' := by
  obtain ⟨u, hwalk, hend⟩ := h
  obtain ⟨u', hwalk', hend'⟩ := h'
  rcases prefix_or_prefix_of_prefix hend.isPrefix hend'.isPrefix with hle | hle
  · exact hend.eq hwalk hwalk' hend'.isPrefix hle
  · exact (hend'.eq hwalk' hwalk hend.isPrefix hle).symm

/-- The path that the URI has for the loop does not lead above the root by its first or its last
segment. -/
def Stays (uri : Bytes) : Prop := ∀ path query, Target uri path query → Grounded path

/-- **Accepted paths.** The path of an accepted URI stays below the document root exactly if its
first segment is not `..`, and a last segment `..` has an ordinary segment to take back. -/
theorem safe_iff (uri : Bytes) : ((setUri {} uri).1 = true → Safe (setUri {} uri).2.path) ↔
    ((setUri {} uri).1 = true → Stays uri) := by
  refine forall_congr' fun haccept ↦ ?_
  obtain ⟨query, htarget, hsafe⟩ : ∃ query, Target uri (setUri {} uri).2.path query ∧
      ∀ l, l <+: (split (setUri {} uri).2.path).1.tail → 0 ≤ balance l := by
    by_cases huri : uri = ['*'.toUInt8]
    · subst huri
      exact ⟨none, ⟨_, .letter .nil nofun nofun, .inl ⟨rfl, rfl⟩⟩, fun l hl ↦ by
        rw [prefix_nil.1 hl]; exact le_rfl⟩
    · obtain ⟨s, query, hscan, hmin, htarget, hpath, -⟩ := exists_walk huri haccept
      rw [hpath]
      refine ⟨query, htarget, Deep.scan ?_ hscan hmin⟩
      exact ⟨rfl, fun _ ↦ ⟨0, rfl, le_rfl, le_rfl, fun l hl ↦ by
        rw [prefix_nil.1 hl]; exact le_rfl⟩⟩
  rw [safe_iff_grounded hsafe]
  exact ⟨fun h path query' h' ↦ htarget.unique h' ▸ h, fun h ↦ h _ query htarget⟩

theorem not_safe : ¬∀ uri, (setUri {} uri).1 = true → Safe (setUri {} uri).2.path := by
  intro hall
  have h := hall ['/'.toUInt8, '.'.toUInt8, '.'.toUInt8]
  exact absurd (h rfl _ prefix_rfl) (by decide)

end Xzero.Http
