import Xzero.Util.Buffer

/-!
# The data frames of HTTP/2

`generateData` of `xzero/http/http2/Generator.cc` cuts data into frames that the other side takes.
`END_STREAM` is to be set on the final one, and only if the stream ends. The flag is computed from
`last` or the end of the data, though, and not from both: it is on every frame in the one case and
on the final one in the other.

**Data is framed right exactly if it ends the stream and fits a frame** (`framed_iff`).
-/

namespace Xzero.Http.Http2

open List Util Option

inductive FrameType
  | data | headers | priority | resetStream | settings | pushPromise | ping | goAway | windowUpdate
  | continuation
  deriving DecidableEq

/-- The fields of a frame's header, and what is written behind it. -/
structure Frame where
  length : ℕ
  type : FrameType
  flags : ℕ
  streamId : ℕ
  payload : Bytes

def endStream : ℕ := 0x01

def Frame.has (f : Frame) (flag : ℕ) : Bool := f.flags &&& flag != 0

/-- `generateFrameHeader` and the payload. The fields have 24, 8 and 31 bits. -/
def generateFrame (type : FrameType) (flags streamId : ℕ) (payload : Bytes) : Frame :=
  ⟨payload.length % 2 ^ 24, type, flags % 2 ^ 8, streamId % 2 ^ 31, payload⟩

/-- `Generator`; the constructor asserts that a frame has room for more than a header and a byte. -/
structure Generator where
  maxFrameSize : ℕ
  lt_maxFrameSize : 10 < maxFrameSize

namespace Generator

/-- The loop of `generateData`, with what is left of the data. -/
def dataLoop (g : Generator) (sid : ℕ) (last : Bool) (data : Bytes) : List Frame :=
  let payloadSize := min data.length g.maxFrameSize
  let flags := if !last && payloadSize < data.length then 0 else endStream
  generateFrame .data flags sid (data.take payloadSize) ::
    if payloadSize = data.length then [] else dataLoop g sid last (data.drop payloadSize)
termination_by data.length
decreasing_by
  have := g.lt_maxFrameSize
  simp only [length_drop]
  omega

/-- `generateData`; `none` where its assertion fails. -/
def generateData (g : Generator) (sid : ℕ) (data : Bytes) (last : Bool) : Option (List Frame) :=
  if sid ≠ 0 then some (g.dataLoop sid last data) else none

end Generator

/-- The flag is on the final frame, if at all. -/
def Marks (flag : ℕ) (set : Bool) (fs : List Frame) : Prop :=
  ∃ init f, fs = init ++ [f] ∧ f.has flag = set ∧ ∀ f ∈ init, f.has flag = false

/-- The frames carry the data, and `END_STREAM` is set as it should. -/
structure Framed (limit : ℕ) (data : Bytes) (last : Bool) (fs : List Frame) : Prop where
  type : ∀ f ∈ fs, f.type = .data
  length : ∀ f ∈ fs, f.length = f.payload.length
  payloads : fs.flatMap Frame.payload = data
  limit : ∀ f ∈ fs, f.payload.length ≤ limit
  marks : Marks endStream last fs

section

variable {g : Generator} {sid : ℕ} {last : Bool} {data : Bytes}

theorem has_endStream (type : FrameType) (payload : Bytes) :
    (generateFrame type endStream sid payload).has endStream = true := by
  simp [Frame.has, generateFrame, endStream]

theorem dataLoop_of_le (h : data.length ≤ g.maxFrameSize) :
    g.dataLoop sid last data = [generateFrame .data endStream sid data] := by
  rw [Generator.dataLoop]
  simp [min_eq_left h]

theorem dataLoop_of_lt (h : g.maxFrameSize < data.length) : g.dataLoop sid last data =
    generateFrame .data (if last then endStream else 0) sid (data.take g.maxFrameSize) ::
      g.dataLoop sid last (data.drop g.maxFrameSize) := by
  rw [Generator.dataLoop]
  cases last <;> simp [min_eq_right h.le, h, h.ne]

/-- The final frame ends the stream, whatever was asked for. -/
theorem getLast_dataLoop (sid : ℕ) (last : Bool) (data : Bytes) :
    ∃ fs f, g.dataLoop sid last data = fs ++ [f] ∧ f.has endStream = true := by
  induction hn : data.length using Nat.strong_induction_on generalizing data with
  | _ n ih =>
    rcases lt_or_ge g.maxFrameSize data.length with h | h
    · have hlt : (data.drop g.maxFrameSize).length < n := by
        have := g.lt_maxFrameSize
        rw [length_drop]
        omega
      obtain ⟨fs, f, hfs, hf⟩ := ih _ hlt _ rfl
      exact ⟨_ :: fs, f, by rw [dataLoop_of_lt h, hfs, cons_append], hf⟩
    · exact ⟨[], _, dataLoop_of_le h, has_endStream _ _⟩

end

/-- **Data is framed right if it ends the stream and fits one frame**, and not otherwise. -/
theorem framed_iff (g : Generator) (sid : ℕ) (data : Bytes) (last : Bool) :
    (∃ fs, g.generateData sid data last = some fs ∧ Framed g.maxFrameSize data last fs) ↔
      sid ≠ 0 ∧ last = true ∧ data.length ≤ g.maxFrameSize ∧ data.length < 2 ^ 24 := by
  constructor
  · rintro ⟨fs, hfs, h⟩
    obtain ⟨hsid, hfs⟩ := ite_none_right_eq_some.1 hfs
    obtain rfl := some.inj hfs
    obtain ⟨init, f, hinit, hf, hothers⟩ := h.marks
    obtain ⟨init', f', hloop, hf'⟩ := getLast_dataLoop sid last data
    obtain ⟨-, heq⟩ := append_inj' (hinit.symm.trans hloop) rfl
    obtain rfl : last = true := by rw [← hf, singleton_inj.1 heq, hf']
    have hle : data.length ≤ g.maxFrameSize := by
      -- The first of several frames ends the stream as well.
      by_contra hlt
      obtain ⟨init', f', hloop, -⟩ := getLast_dataLoop sid true (data.drop g.maxFrameSize)
      rw [dataLoop_of_lt (not_le.1 hlt), hloop, ← cons_append] at hinit
      obtain ⟨rfl, -⟩ := append_inj' hinit rfl
      cases (has_endStream _ _).symm.trans (hothers _ mem_cons_self)
    have hlength := h.length _ (by rw [dataLoop_of_le hle]; exact mem_singleton_self _)
    exact ⟨hsid, rfl, hle, hlength ▸ Nat.mod_lt _ (by decide)⟩
  · rintro ⟨hsid, rfl, hle, hlt⟩
    refine ⟨_, if_pos hsid, ?_⟩
    rw [dataLoop_of_le hle]
    refine ⟨?_, ?_, flatMap_singleton _ _, ?_, [], _, rfl, has_endStream _ _, nofun⟩ <;>
      rw [forall_mem_singleton]
    exacts [rfl, Nat.mod_eq_of_lt hlt, hle]

/-- The empty data that does not end the stream ends it. -/
theorem not_framed : ¬∀ (g : Generator) (sid : ℕ) (data : Bytes) (last : Bool), sid ≠ 0 →
    ∃ fs, g.generateData sid data last = some fs ∧ Framed g.maxFrameSize data last fs := by
  intro h
  obtain ⟨fs, hfs, hframed⟩ := h ⟨16384, by decide⟩ 1 [] false one_ne_zero
  obtain rfl := some.inj hfs
  obtain ⟨init, f, hinit, hf, -⟩ := hframed.marks
  rw [dataLoop_of_le (Nat.zero_le _)] at hinit
  obtain ⟨-, heq⟩ := append_inj' (hinit.symm.trans (nil_append _).symm) rfl
  rw [singleton_inj.1 heq] at hf
  cases (has_endStream _ _).symm.trans hf

end Xzero.Http.Http2
