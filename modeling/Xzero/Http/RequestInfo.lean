import Mathlib.Data.List.TakeWhile
import Xzero.Library.Escape
import Xzero.Util.Buffer

/-!
# Request URIs

`xzero/http/HttpRequestInfo.cc`: `setUri` reads the URI of a request byte by byte. It decodes the
path, tells it from the query, and counts how deep the path leads into the document root. What an
escape stands for is not appended to the path at once: the loop goes through its states once more
with the decoded byte in place of the byte read (`dispatch`).

The loop reads one byte ahead and ends at the null byte behind the string; here the byte it looks at
is the first one of those left. `int` wraps around, and a negative number is shifted as the other
numbers are.

What the loop has read is described by `Walk`, letter by letter and escape by escape:
**an accepted URI is walked through up to a question mark**, or to its end (`exists_walk`).
-/

namespace Xzero.Http

open List Util

/-- The states of the loop in which it reads the path. -/
inductive PathState
  | content | slash | dot | dotDot
  deriving DecidableEq, Repr

/-- `UriState`, with `quotedState` and `decodedChar` where they are set. -/
inductive UriState
  | path (state : PathState)
  | quoteStart (quotedState : PathState)
  | quoteChar2 (quotedState : PathState) (decodedChar : UInt8)
  | queryStart
  deriving DecidableEq, Repr

/-- The members of `HttpRequestInfo` that `setUri` writes. -/
structure RequestInfo where
  unparsedUri : Bytes := []
  path : Bytes := []
  query : Bytes := []
  directoryDepth : Int := 0
  deriving DecidableEq, Repr

/-- The variables of the loop, and the path so far. -/
structure Scan where
  state : UriState
  path : Bytes
  depth : Int
  minDepth : Int
  deriving DecidableEq, Repr

/-- An `int`. -/
def wrap (n : Int) : Int := n.bmod (2 ^ 32)

namespace Scan

/-- `path_ += ch`, in the state the loop goes on with. -/
def push (s : Scan) (ch : UInt8) (state : PathState) : Scan :=
  { s with state := .path state, path := s.path ++ [ch] }

/-- `++depth`. -/
def deeper (s : Scan) : Scan := { s with depth := wrap (s.depth + 1) }

/-- `--depth`, and the least depth. -/
def higher (s : Scan) : Scan :=
  { s with depth := wrap (s.depth - 1), minDepth := min (wrap (s.depth - 1)) s.minDepth }

/-- A byte in one of the states of the path. -/
def dispatch (s : Scan) (ch : UInt8) : PathState → Scan
  | .content =>
    if ch = '/'.toUInt8 then s.push ch .slash
    else if ch = '%'.toUInt8 then { s with state := .quoteStart .content }
    else if ch = '?'.toUInt8 then { s with state := .queryStart }
    else s.push ch .content
  | .slash =>
    if ch = '/'.toUInt8 then s.push ch .slash
    else if ch = '.'.toUInt8 then s.push ch .dot
    else if ch = '%'.toUInt8 then { s with state := .quoteStart .slash }
    else if ch = '?'.toUInt8 then { s with state := .queryStart }.deeper
    else (s.push ch .content).deeper
  | .dot =>
    if ch = '/'.toUInt8 then s.push ch .slash
    else if ch = '.'.toUInt8 then s.push ch .dotDot
    else if ch = '%'.toUInt8 then { s with state := .quoteStart .dot }
    else if ch = '?'.toUInt8 then { s with state := .queryStart }.deeper
    else (s.push ch .content).deeper
  | .dotDot =>
    if ch = '/'.toUInt8 then (s.push ch .slash).higher
    else if ch = '%'.toUInt8 then { s with state := .quoteStart .dotDot }
    else (s.push ch .content).deeper

end Scan

/-- The first digit of an escape: `decodedChar`. -/
def highDigit (ch : UInt8) : Option UInt8 :=
  if '0'.toUInt8 ≤ ch ∧ ch ≤ '9'.toUInt8 then some ((ch - '0'.toUInt8) <<< 4)
  else
    let ch := ch ||| 0x20
    if 'a'.toUInt8 ≤ ch ∧ ch ≤ 'f'.toUInt8 then some ((ch - ('a'.toUInt8 + 10)) <<< 4) else none

/-- The second digit of an escape, and the decoded byte. -/
def lowDigit (decodedChar ch : UInt8) : Option UInt8 :=
  if '0'.toUInt8 ≤ ch ∧ ch ≤ '9'.toUInt8 then some (decodedChar ||| (ch - '0'.toUInt8))
  else
    let ch := ch ||| 0x20
    if 'a'.toUInt8 ≤ ch ∧ ch ≤ 'f'.toUInt8 then some (decodedChar ||| (ch - ('a'.toUInt8 - 10)))
    else none

/-- What the loop comes to: `return false`, or the end, with the query if there is one. -/
inductive Outcome
  | failed (path : Bytes)
  | done (s : Scan) (query : Option Bytes)
  deriving DecidableEq, Repr

/-- The loop of `setUri`, over the bytes that are left. -/
def scan (s : Scan) : Bytes → Outcome
  | [] =>
    match s.state with
    | .quoteStart _ | .quoteChar2 _ _ => .failed s.path
    | _ => .done s none
  | ch :: rest =>
    match s.state with
    | .path state => scan (s.dispatch ch state) rest
    | .quoteStart quotedState =>
      match highDigit ch with
      | some decodedChar => scan { s with state := .quoteChar2 quotedState decodedChar } rest
      | none => .failed s.path
    | .quoteChar2 quotedState decodedChar =>
      match lowDigit decodedChar ch with
      | some ch =>
        if ch = 0 then .failed s.path
        else if ch = '%'.toUInt8 then scan (s.push ch .content) rest
        else scan (s.dispatch ch quotedState) rest
      | none => .failed s.path
    | .queryStart => if ch = '?'.toUInt8 then scan s rest else .done s (some (ch :: rest))

/-- `setUri`, with what it returns. -/
def setUri (r : RequestInfo) (uri : Bytes) : Bool × RequestInfo :=
  let r := { r with unparsedUri := uri }
  if uri = ['*'.toUInt8] then (true, { r with path := ['*'.toUInt8], directoryDepth := 0 })
  else
    match scan ⟨.path .content, r.path, 0, 0⟩ uri with
    | .failed path => (false, { r with path := path })
    | .done s query =>
      (decide (0 ≤ s.minDepth),
        { r with path := s.path, query := query.getD r.query, directoryDepth := s.depth })

/-! ### What the loop reads -/

/-- The state after a byte of the path. -/
def PathState.next (state : PathState) (ch : UInt8) : PathState :=
  if ch = '/'.toUInt8 then .slash
  else if ch = '.'.toUInt8 then
    match state with
    | .slash => .dot
    | .dot => .dotDot
    | _ => .content
  else .content

def PathState.after (path : Bytes) : PathState := path.foldl .next .content

/-- What an escape stands for, as the loop decodes it. -/
def readByte (a b : UInt8) : Option UInt8 :=
  (highDigit a).bind fun decodedChar ↦ (lowDigit decodedChar b).bind fun ch ↦
    if ch = 0 then none else some ch

/-- What is read up to a place in the path, and the path so far: bytes other than `%`, and escapes.
A question mark is there only after `/..`. -/
inductive Walk : Bytes → Bytes → Prop
  | nil : Walk [] []
  | letter {u p : Bytes} {c : UInt8} : Walk u p → c ≠ '%'.toUInt8 →
      (c = '?'.toUInt8 → PathState.after p = .dotDot) → Walk (u ++ [c]) (p ++ [c])
  | escape {u p : Bytes} {a b x : UInt8} : Walk u p → readByte a b = some x →
      (x = '?'.toUInt8 → PathState.after p = .dotDot) →
      Walk (u ++ ['%'.toUInt8, a, b]) (p ++ [x])

/-- A question mark, or an escape that stands for one. -/
inductive Mark : Bytes → Prop
  | letter : Mark ['?'.toUInt8]
  | escape {a b : UInt8} : readByte a b = some '?'.toUInt8 → Mark ['%'.toUInt8, a, b]

/-- What is read so far is what the state of the loop says. -/
def Reached (u : Bytes) (s : Scan) : Prop :=
  match s.state with
  | .path state => Walk u s.path ∧ state = PathState.after s.path
  | .quoteStart state =>
    ∃ v, u = v ++ ['%'.toUInt8] ∧ Walk v s.path ∧ state = PathState.after s.path
  | .quoteChar2 state decodedChar =>
    ∃ v a, u = v ++ ['%'.toUInt8, a] ∧ highDigit a = some decodedChar ∧ Walk v s.path ∧
      state = PathState.after s.path
  | .queryStart =>
    ∃ v m n, u = v ++ m ++ replicate n '?'.toUInt8 ∧ Mark m ∧ Walk v s.path ∧
      PathState.after s.path ≠ .dotDot

theorem PathState.after_concat (path : Bytes) (ch : UInt8) :
    PathState.after (path ++ [ch]) = (PathState.after path).next ch :=
  foldl_concat ..

/-- **A byte of the path** that is not `%`: a question mark ends the path, unless it comes after
`/..`, and every other byte is appended. -/
theorem dispatch_spec (s : Scan) {ch : UInt8} (state : PathState) (hch : ch ≠ '%'.toUInt8) :
    (ch = '?'.toUInt8 ∧ state ≠ .dotDot ∧ (s.dispatch ch state).state = .queryStart ∧
      (s.dispatch ch state).path = s.path) ∨
    ((ch = '?'.toUInt8 → state = .dotDot) ∧ (s.dispatch ch state).path = s.path ++ [ch] ∧
      (s.dispatch ch state).state = .path (state.next ch)) := by
  by_cases hslash : ch = '/'.toUInt8
  · subst hslash
    refine .inr ⟨nofun, ?_⟩
    cases state <;> exact ⟨rfl, rfl⟩
  by_cases hdot : ch = '.'.toUInt8
  · subst hdot
    refine .inr ⟨nofun, ?_⟩
    cases state <;> exact ⟨rfl, rfl⟩
  by_cases hmark : ch = '?'.toUInt8
  · subst hmark
    cases state with
    | dotDot => exact .inr ⟨fun _ ↦ rfl, rfl, rfl⟩
    | _ => exact .inl ⟨rfl, nofun, rfl, rfl⟩
  · refine Or.inr ⟨fun h ↦ absurd h hmark, ?_⟩
    cases state <;>
      simp [Scan.dispatch, Scan.push, Scan.deeper, PathState.next, hslash, hdot, hmark, hch]

theorem dispatch_percent (s : Scan) (state : PathState) :
    s.dispatch '%'.toUInt8 state = { s with state := .quoteStart state } := by
  cases state <;> rfl

theorem Reached.dispatch {s : Scan} {u m : Bytes} {ch : UInt8} {state : PathState}
    (hwalk : Walk u s.path) (hstate : state = PathState.after s.path) (hch : ch ≠ '%'.toUInt8)
    (hmark : ch = '?'.toUInt8 → Mark m)
    (hnext : (ch = '?'.toUInt8 → PathState.after s.path = .dotDot) →
      Walk (u ++ m) (s.path ++ [ch])) :
    Reached (u ++ m) (s.dispatch ch state) := by
  rcases dispatch_spec s state hch with ⟨hq, hne, hst, hpath⟩ | ⟨hq, hpath, hst⟩
  · rw [Reached, hst, hpath]
    exact ⟨u, m, 0, (append_nil _).symm, hmark hq, hwalk, hstate ▸ hne⟩
  · rw [Reached, hst, hpath]
    exact ⟨hnext fun heq ↦ hstate ▸ hq heq, by rw [PathState.after_concat, hstate]⟩

/-- What is read for the path ends with the URI, or before a question mark and the query. -/
def Ends (uri u path : Bytes) (query : Option Bytes) : Prop :=
  (uri = u ∧ query = none) ∨ ∃ m r, uri = u ++ m ++ r ∧ Mark m ∧
    PathState.after path ≠ .dotDot ∧ query.getD [] = r.dropWhile (· = '?'.toUInt8)

/-- The path that a URI has for the loop, and the query. -/
def Target (uri path : Bytes) (query : Option Bytes) : Prop :=
  ∃ u, Walk u path ∧ Ends uri u path query

/-- **The loop**: from what is read so far to its end. -/
theorem Reached.scan {rest : Bytes} {u : Bytes} {s s' : Scan} {query : Option Bytes}
    (hu : Reached u s) (hscan : scan s rest = .done s' query) :
    Target (u ++ rest) s'.path query := by
  induction rest generalizing u s with
  | nil =>
    rw [Http.scan] at hscan
    rw [Reached] at hu
    split at hscan
    · cases hscan
    · cases hscan
    · next hquote₁ hquote₂ =>
      cases hscan
      split at hu
      · exact ⟨u, hu.1, .inl ⟨append_nil u, rfl⟩⟩
      · next state hst => exact absurd hst (hquote₁ state)
      · next state d hst => exact absurd hst (hquote₂ state d)
      · obtain ⟨v, m, n, rfl, hm, hwalk, hne⟩ := hu
        refine ⟨v, hwalk, .inr ⟨m, replicate n _, append_nil _, hm, hne, ?_⟩⟩
        exact (dropWhile_eq_nil_iff.2 fun c hc ↦
          decide_eq_true (eq_of_mem_replicate hc)).symm
  | cons ch rest ih =>
    have hassoc : ∀ (v m : Bytes), v ++ m ++ ch :: rest = (v ++ (m ++ [ch])) ++ rest := by simp
    rw [Http.scan] at hscan
    rw [Reached] at hu
    split at hscan
    · next state hst =>
      rw [hst] at hu
      obtain ⟨hwalk, hstate⟩ := hu
      rw [append_cons]
      refine ih ?_ hscan
      by_cases hch : ch = '%'.toUInt8
      · rw [hch, dispatch_percent]
        exact ⟨u, rfl, hwalk, hstate⟩
      · exact Reached.dispatch hwalk hstate hch (fun h ↦ h ▸ .letter) (.letter hwalk hch)
    · next state hst =>
      rw [hst] at hu
      obtain ⟨v, rfl, hwalk, hstate⟩ := hu
      split at hscan
      · next d hd =>
        rw [hassoc]
        refine ih ?_ hscan
        exact ⟨v, ch, rfl, hd, hwalk, hstate⟩
      · cases hscan
    · next state d hst =>
      rw [hst] at hu
      obtain ⟨v, a, rfl, hd, hwalk, hstate⟩ := hu
      rw [hassoc]
      split at hscan
      · next x hx =>
        split at hscan
        · cases hscan
        · next hzero =>
          have hread : readByte a ch = some x := by
            rw [readByte, hd, Option.bind_some, hx, Option.bind_some, if_neg hzero]
          split at hscan
          · next hpercent =>
            refine ih ?_ hscan
            refine ⟨.escape hwalk hread ?_, ?_⟩
            · rw [hpercent]
              nofun
            · rw [Scan.push, PathState.after_concat, hpercent]
              rfl
          · next hpercent =>
            exact ih (Reached.dispatch hwalk hstate hpercent (fun h ↦ .escape (h ▸ hread))
              (.escape hwalk hread)) hscan
      · cases hscan
    · next hst =>
      rw [hst] at hu
      obtain ⟨v, m, n, rfl, hm, hwalk, hne⟩ := hu
      split at hscan
      · next hch =>
        rw [append_cons]
        refine ih ?_ hscan
        rw [Reached, hst]
        refine ⟨v, m, n + 1, ?_, hm, hwalk, hne⟩
        rw [hch, append_assoc _ _ [_], replicate_succ']
      · next hch =>
        cases hscan
        refine ⟨v, hwalk, .inr ⟨m, replicate n '?'.toUInt8 ++ ch :: rest, ?_, hm, hne, ?_⟩⟩
        · rw [append_assoc _ (replicate n _)]
        · rw [dropWhile_append_of_pos fun c hc ↦
            decide_eq_true (eq_of_mem_replicate hc)]
          rw [dropWhile_cons_of_neg (by simpa using hch)]
          rfl

/-- **An accepted URI** is walked through, to its end or up to a question mark. -/
theorem exists_walk {uri : Bytes} (huri : uri ≠ ['*'.toUInt8]) (h : (setUri {} uri).1 = true) :
    ∃ s query, scan ⟨.path .content, [], 0, 0⟩ uri = .done s query ∧ 0 ≤ s.minDepth ∧
      Target uri s.path query ∧ (setUri {} uri).2.path = s.path ∧
      (setUri {} uri).2.query = query.getD [] := by
  rw [setUri, if_neg huri] at h ⊢
  split at h
  · cases h
  · next s query hscan =>
    rw [hscan]
    have hinit : Reached [] ⟨.path .content, [], 0, 0⟩ := ⟨.nil, rfl⟩
    exact ⟨s, query, rfl, of_decide_eq_true h, hinit.scan hscan, rfl, rfl⟩

end Xzero.Http
