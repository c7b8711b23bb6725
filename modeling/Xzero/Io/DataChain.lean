import Xzero.Util.Buffer

/-!
# Chains of data

`xzero/io/DataChain.cc`: a chain of chunks, which are buffers or parts of files, behind which is a
buffer for what is written. Chunks are cut as their bytes are handed out, and a chunk of which
nothing is left may stay in the chain. A sink takes any number of the bytes that it is offered.

**Bytes are handed out in the order in which they were written, none is lost, and the chain knows
how many are left. A transfer ends, and succeeds if and only if all the bytes that it is about were
taken** (`DataChain.conserves`).
-/

namespace Xzero.Io

open List Util

/-- What files have at their positions. -/
abbrev Files := ℕ → ℕ → UInt8

structure FileView where
  fd : ℕ
  offset : ℕ
  size : ℕ
  deriving DecidableEq, Repr

namespace FileView

def view (v : FileView) (offset n : ℕ) : FileView :=
  ⟨v.fd, v.offset + offset, min n (v.size - offset)⟩

def bytes (files : Files) (v : FileView) : Bytes := ofFn fun i : Fin v.size ↦ files v.fd (v.offset + i)

end FileView

inductive Chunk
  /-- `BufferChunk`, with its `offset_`. -/
  | buffer (data : Bytes) (offset : ℕ) (h : offset ≤ data.length)
  /-- `FileChunk`. -/
  | file (view : FileView)

namespace Chunk

def size : Chunk → ℕ
  | buffer data offset _ => data.length - offset
  | file view => view.size

def bytes (files : Files) : Chunk → Bytes
  | buffer data offset _ => data.drop offset
  | file view => view.bytes files

/-- The first bytes, as `get` returns them and as `transferTo` offers them. -/
def front : Chunk → ℕ → Chunk
  | buffer data offset _, n => buffer ((data.drop offset).take n) 0 (Nat.zero_le _)
  | file view, n => file (view.view 0 n)

/-- What `get` and `transferTo` leave. -/
def advance : (c : Chunk) → (n : ℕ) → n ≤ c.size → Chunk
  | buffer data offset h, n, hn => buffer data (offset + n) (Nat.add_le_of_le_sub' h hn)
  | file view, n, _ => file { view with size := view.size - n, offset := view.offset + n }

section

variable (files : Files) (c : Chunk) (n : ℕ)

@[simp] theorem length_bytes : (c.bytes files).length = c.size := by
  rcases c with ⟨data, offset, h⟩ | view
  · exact length_drop
  · exact length_ofFn

@[simp] theorem bytes_front : (c.front n).bytes files = (c.bytes files).take n := by
  rcases c with ⟨data, offset, h⟩ | view
  · rfl
  · refine ext_getElem (by simp [bytes, front, FileView.view, FileView.bytes]) fun i _ _ ↦ ?_
    simp [bytes, front, FileView.view, FileView.bytes]

@[simp] theorem bytes_advance (h : n ≤ c.size) : (c.advance n h).bytes files = (c.bytes files).drop n := by
  rcases c with ⟨data, offset, h'⟩ | view
  · exact drop_drop.symm
  · refine ext_getElem (by simp [bytes, advance, FileView.bytes]) fun i _ _ ↦ ?_
    simp [bytes, advance, FileView.bytes, add_assoc]

@[simp] theorem size_front : (c.front n).size = min n c.size := by
  rw [← length_bytes fun _ _ ↦ 0, bytes_front, length_take, length_bytes]

end

end Chunk

structure DataChain where
  chunks : List Chunk := []
  buffer : Bytes := []
  size : ℕ := 0

/-- How many bytes a sink is ready to take, each time it is called. -/
abbrev Sink := ℕ → ℕ

namespace DataChain

/-- `write`, of a string or of a reference to a buffer. -/
def write (c : DataChain) (buf : Bytes) : DataChain :=
  { c with buffer := c.buffer ++ buf, size := c.size + buf.length }

def flushBuffer (c : DataChain) : DataChain :=
  if c.buffer = [] then c
  else { c with chunks := c.chunks ++ [.buffer c.buffer 0 (Nat.zero_le _)], buffer := [] }

/-- `write`, of a buffer that is given away. -/
def writeBuffer (c : DataChain) (buf : Bytes) : DataChain :=
  if buf.length < 1024 then c.write buf
  else { c.flushBuffer with size := c.flushBuffer.size + buf.length, buffer := buf }

/-- `write`, of a chunk. -/
def writeChunk (c : DataChain) (chunk : Chunk) : DataChain :=
  { c.flushBuffer with
    chunks := c.flushBuffer.chunks ++ [chunk], size := c.flushBuffer.size + chunk.size }

/-- `write`, of a file. -/
def writeFile (c : DataChain) (file : FileView) : DataChain :=
  if file.size = 0 then c.flushBuffer else c.writeChunk (.file file)

/-- The bytes of an integer, the highest one first. -/
def bigEndian (width bin : ℕ) : Bytes :=
  (range width).reverse.map fun i ↦ UInt8.ofNat (bin >>> (8 * i))

def write8 (c : DataChain) (bin : UInt8) : DataChain := c.write (bigEndian 1 bin.toNat)

def write16 (c : DataChain) (bin : UInt16) : DataChain := c.write (bigEndian 2 bin.toNat)

def write24 (c : DataChain) (bin : UInt32) : DataChain := c.write (bigEndian 3 bin.toNat)

def write32 (c : DataChain) (bin : UInt32) : DataChain := c.write (bigEndian 4 bin.toNat)

def write64 (c : DataChain) (bin : UInt64) : DataChain := c.write (bigEndian 8 bin.toNat)

def get (c : DataChain) (n : ℕ) : Option Chunk × DataChain :=
  let c := if c.chunks = [] then c.flushBuffer else c
  match c.chunks with
  | [] => (none, c)
  | front :: rest =>
    if h : front.size < n then (some front, { c with chunks := rest, size := c.size - front.size })
    else (some (front.front n), { c with
      chunks := front.advance n (Nat.le_of_not_lt h) :: rest
      size := c.size - (front.front n).size })

/-- The loop of `transferTo`, with what the sink takes. -/
def transferLoop (sink : Sink) (c : DataChain) (n : ℕ) : Option (List Chunk × DataChain × Bool) :=
  if 0 < n ∧ 0 < c.size then
    match hchunks : c.chunks with
    | [] => none
    | front :: rest =>
      let transferred := min (sink 0) (min n front.size)
      have h : transferred ≤ front.size := (min_le_right ..).trans (min_le_right ..)
      let left := front.advance transferred h
      let c' := { c with size := c.size - transferred }
      if transferred < left.size ∧ 0 < n - transferred then
        some ([front.front transferred], { c' with chunks := left :: rest }, false)
      else
        let c' := { c' with chunks := if left.size = 0 then rest else left :: rest }
        if n - transferred = 0 then some ([front.front transferred], c', true)
        else (transferLoop (fun i ↦ sink (i + 1)) c' (n - transferred)).map
          fun t ↦ (front.front transferred :: t.1, t.2)
  else some ([], c, n = 0)
termination_by n + c.chunks.length
decreasing_by
  -- nothing is taken only from a chunk that is empty, and such a chunk goes
  have hleft : left.size = (front.advance (min (sink 0) (min n front.size)) h).size := rfl
  rw [hchunks, length_cons]
  split_ifs with hempty
  · omega
  · rw [length_cons]
    omega

def transferTo (c : DataChain) (sink : Sink) (n : ℕ) : Option (List Chunk × DataChain × Bool) :=
  transferLoop sink c.flushBuffer n

/-! ### Bytes -/

def bytes (files : Files) (c : DataChain) : Bytes := c.chunks.flatMap (Chunk.bytes files) ++ c.buffer

/-- The chain knows how much is left. -/
def Sized (files : Files) (c : DataChain) : Prop := c.size = (c.bytes files).length

section

variable {files : Files} {c : DataChain}

theorem bytes_flushBuffer : c.flushBuffer.bytes files = c.bytes files := by
  rw [flushBuffer]
  split
  · rfl
  · simp [bytes, Chunk.bytes]

theorem size_flushBuffer : c.flushBuffer.size = c.size := by
  rw [flushBuffer]
  split <;> rfl

theorem buffer_flushBuffer : c.flushBuffer.buffer = [] := by
  rw [flushBuffer]
  split
  · next h => exact h
  · rfl

theorem sized_flushBuffer (h : c.Sized files) : c.flushBuffer.Sized files := by
  rw [Sized, bytes_flushBuffer, size_flushBuffer, h]

/-- Bytes are put behind those that there are. -/
structure Puts (files : Files) (c : DataChain) (w : Bytes) (c' : DataChain) : Prop where
  bytes_eq : c'.bytes files = c.bytes files ++ w
  size_eq : c'.size = c.size + w.length

theorem puts_write (buf : Bytes) : Puts files c buf (c.write buf) :=
  ⟨(append_assoc ..).symm, rfl⟩

theorem puts_writeBuffer (buf : Bytes) : Puts files c buf (c.writeBuffer buf) := by
  rw [writeBuffer]
  split
  · exact puts_write buf
  · refine ⟨?_, congrArg (· + buf.length) size_flushBuffer⟩
    rw [← bytes_flushBuffer (c := c), bytes, bytes, buffer_flushBuffer, append_nil]

theorem puts_writeChunk (chunk : Chunk) : Puts files c (chunk.bytes files) (c.writeChunk chunk) := by
  refine ⟨?_, ?_⟩
  · rw [← bytes_flushBuffer (c := c), bytes, bytes]
    simp [writeChunk, buffer_flushBuffer]
  · rw [writeChunk, size_flushBuffer, Chunk.length_bytes]

theorem puts_writeFile (file : FileView) : Puts files c (file.bytes files) (c.writeFile file) := by
  rw [writeFile]
  split
  · next h =>
    have hnil : file.bytes files = [] := length_eq_zero_iff.1 (length_ofFn.trans h)
    rw [hnil]
    exact ⟨bytes_flushBuffer.trans (append_nil _).symm, size_flushBuffer⟩
  · exact puts_writeChunk (.file file)

/-- Chunks are taken from the front, and the rest is left. -/
structure Takes (files : Files) (c : DataChain) (taken : List Chunk) (c' : DataChain) : Prop where
  bytes_eq : taken.flatMap (Chunk.bytes files) ++ c'.bytes files = c.bytes files
  sized : c'.Sized files

theorem takes_of_size {taken : List Chunk} {c' : DataChain} (h : c.Sized files)
    (hbytes : taken.flatMap (Chunk.bytes files) ++ c'.bytes files = c.bytes files)
    (hsize : c'.size = c.size - (taken.flatMap (Chunk.bytes files)).length) : Takes files c taken c' := by
  refine ⟨hbytes, ?_⟩
  rw [Sized, hsize, h, ← hbytes, length_append, Nat.add_sub_cancel_left]

theorem Takes.trans {taken taken' : List Chunk} {c' c'' : DataChain} (h : Takes files c taken c')
    (h' : Takes files c' taken' c'') : Takes files c (taken ++ taken') c'' :=
  ⟨by rw [flatMap_append, append_assoc, h'.bytes_eq, h.bytes_eq], h'.sized⟩

theorem takes_front {front : Chunk} {rest : List Chunk} {n : ℕ} (hsized : c.Sized files)
    (h : n ≤ front.size) (hchunks : c.chunks = front :: rest) : Takes files c [front.front n]
      { c with chunks := front.advance n h :: rest, size := c.size - n } := by
  refine takes_of_size hsized ?_ ?_
  · simp only [bytes, hchunks, flatMap_cons, flatMap_nil, Chunk.bytes_front,
      Chunk.bytes_advance, append_assoc, nil_append]
    rw [← append_assoc (take _ _), take_append_drop]
  · simp [min_eq_left h]

theorem takes_get (hsized : c.Sized files) (n : ℕ) : Takes files c (c.get n).1.toList (c.get n).2 := by
  have hflush : Takes files c [] (if c.chunks = [] then c.flushBuffer else c) := by
    split
    · exact ⟨bytes_flushBuffer, sized_flushBuffer hsized⟩
    · exact ⟨rfl, hsized⟩
  rw [get]
  generalize (if c.chunks = [] then c.flushBuffer else c) = c' at *
  split
  · exact hflush
  · next front rest hchunks =>
    split
    · next h =>
      refine hflush.trans (takes_of_size hflush.sized ?_ ?_)
      · simp [bytes, hchunks]
      · simp
    · next h =>
      have hn : n ≤ front.size := Nat.le_of_not_lt h
      rw [Chunk.size_front, min_eq_left hn]
      exact hflush.trans (takes_front hflush.sized hn hchunks)

theorem Takes.pop {taken rest : List Chunk} {left : Chunk} {c' : DataChain} {b : Prop} [Decidable b]
    (h : Takes files c taken { c' with chunks := left :: rest }) (hb : b → left.size = 0) :
    Takes files c taken { c' with chunks := if b then rest else left :: rest } := by
  split
  · next hempty =>
    have hnil : left.bytes files = [] :=
      length_eq_zero_iff.1 ((left.length_bytes files).trans (hb hempty))
    have hbytes : bytes files { c' with chunks := left :: rest } =
        bytes files { c' with chunks := rest } := by
      simp [bytes, hnil]
    exact ⟨hbytes ▸ h.bytes_eq, (h.sized : _ = _).trans (congrArg length hbytes)⟩
  · exact h

theorem transferLoop_spec (hsized : c.Sized files) (hbuffer : c.buffer = []) (sink : Sink) (n : ℕ) :
    ∃ taken c' done, transferLoop sink c n = some (taken, c', done) ∧ Takes files c taken c' ∧
      (done = true ↔ (taken.flatMap (Chunk.bytes files)).length = n) := by
  fun_induction transferLoop sink c n with
  | case1 sink c n hloop hchunks =>
    rw [Sized, bytes, hchunks, hbuffer] at hsized
    exact absurd hsized hloop.2.ne'
  | case2 sink c n hloop front rest hchunks transferred h left c' hstop =>
    refine ⟨_, _, _, rfl, takes_front hsized h hchunks, ?_⟩
    simp [min_eq_left h]
    omega
  | case3 sink c n hloop front rest hchunks transferred h left c₁ hstop c₂ hn =>
    refine ⟨_, _, _, rfl, (takes_front hsized h hchunks).pop id, ?_⟩
    simp [min_eq_left h]
    omega
  | case4 sink c n hloop front rest hchunks transferred h left c₁ hstop c₂ hn ih =>
    have htakes : Takes files c _ c₂ := (takes_front hsized h hchunks).pop id
    obtain ⟨taken, c', done, heq, htakes', hdone⟩ := ih htakes.sized hbuffer
    refine ⟨_, _, _, by rw [heq]; rfl, htakes.trans htakes', ?_⟩
    simp [hdone, min_eq_left h]
    omega
  | case5 sink c n hloop =>
    refine ⟨_, _, _, rfl, ⟨rfl, hsized⟩, ?_⟩
    simp [eq_comm]

theorem transferTo_spec (hsized : c.Sized files) (sink : Sink) (n : ℕ) :
    ∃ taken c' done, c.transferTo sink n = some (taken, c', done) ∧ Takes files c taken c' ∧
      (done = true ↔ (taken.flatMap (Chunk.bytes files)).length = n) := by
  obtain ⟨taken, c', done, heq, htakes, hdone⟩ :=
    transferLoop_spec (sized_flushBuffer hsized) buffer_flushBuffer sink n
  exact ⟨taken, c', done, heq, ⟨htakes.bytes_eq.trans bytes_flushBuffer, htakes.sized⟩, hdone⟩

end

/-! ### Runs -/

/-- A call. -/
inductive Op
  | write (buf : Bytes)
  | writeBuffer (buf : Bytes)
  | writeFile (file : FileView)
  | writeChunk (chunk : Chunk)
  | write8 (bin : UInt8)
  | write16 (bin : UInt16)
  | write24 (bin : UInt32)
  | write32 (bin : UInt32)
  | write64 (bin : UInt64)
  | get (n : ℕ)
  | transferTo (sink : Sink) (n : ℕ)

def Op.written (files : Files) : Op → Bytes
  | write buf | writeBuffer buf => buf
  | writeFile file => file.bytes files
  | writeChunk chunk => chunk.bytes files
  | write8 bin => bigEndian 1 bin.toNat
  | write16 bin => bigEndian 2 bin.toNat
  | write24 bin => bigEndian 3 bin.toNat
  | write32 bin => bigEndian 4 bin.toNat
  | write64 bin => bigEndian 8 bin.toNat
  | get _ | transferTo _ _ => []

/-- A call, with the chunks that it hands out. -/
def step (c : DataChain) : Op → Option (List Chunk × DataChain)
  | .write buf => some ([], c.write buf)
  | .writeBuffer buf => some ([], c.writeBuffer buf)
  | .writeFile file => some ([], c.writeFile file)
  | .writeChunk chunk => some ([], c.writeChunk chunk)
  | .write8 bin => some ([], c.write8 bin)
  | .write16 bin => some ([], c.write16 bin)
  | .write24 bin => some ([], c.write24 bin)
  | .write32 bin => some ([], c.write32 bin)
  | .write64 bin => some ([], c.write64 bin)
  | .get n => some ((c.get n).1.toList, (c.get n).2)
  | .transferTo sink n => (c.transferTo sink n).map fun t ↦ (t.1, t.2.1)

/-- Calls, with the chunks that they hand out. -/
def run (c : DataChain) : List Op → Option (List Chunk × DataChain)
  | [] => some ([], c)
  | op :: ops => (c.step op).bind fun t ↦ (t.2.run ops).map fun t' ↦ (t.1 ++ t'.1, t'.2)

section

variable {files : Files} {c : DataChain}

/-- What is handed out and what is left are what there was and what is written. -/
def Conserves (files : Files) (c : DataChain) (w : Bytes) (t : Option (List Chunk × DataChain)) : Prop :=
  ∃ taken c', t = some (taken, c') ∧
    taken.flatMap (Chunk.bytes files) ++ c'.bytes files = c.bytes files ++ w ∧ c'.Sized files

theorem Puts.conserved {w : Bytes} {c' : DataChain} (h : Puts files c w c') (hsized : c.Sized files) :
    Conserves files c w (some ([], c')) := by
  refine ⟨[], c', rfl, h.bytes_eq, ?_⟩
  rw [Sized, h.size_eq, h.bytes_eq, length_append, hsized]

theorem Takes.conserved {taken : List Chunk} {c' : DataChain} (h : Takes files c taken c') :
    Conserves files c [] (some (taken, c')) :=
  ⟨taken, c', rfl, h.bytes_eq.trans (append_nil _).symm, h.sized⟩

theorem conserves_step (hsized : c.Sized files) (op : Op) :
    Conserves files c (op.written files) (c.step op) := by
  cases op with
  | write buf => exact (puts_write buf).conserved hsized
  | writeBuffer buf => exact (puts_writeBuffer buf).conserved hsized
  | writeFile file => exact (puts_writeFile file).conserved hsized
  | writeChunk chunk => exact (puts_writeChunk chunk).conserved hsized
  | write8 bin | write16 bin | write24 bin | write32 bin | write64 bin =>
    exact (puts_write _).conserved hsized
  | get n => exact (takes_get hsized n).conserved
  | transferTo sink n =>
    obtain ⟨taken, c', done, heq, htakes, -⟩ := transferTo_spec hsized sink n
    rw [step, heq]
    exact htakes.conserved

theorem conserves_run (hsized : c.Sized files) (ops : List Op) :
    Conserves files c (ops.flatMap (Op.written files)) (c.run ops) := by
  induction ops generalizing c with
  | nil => exact ⟨[], c, rfl, (append_nil _).symm, hsized⟩
  | cons op ops ih =>
    obtain ⟨taken, c₁, hstep, hbytes, hsized₁⟩ := conserves_step hsized op
    obtain ⟨taken', c', hrun, hbytes', hsized'⟩ := ih hsized₁
    refine ⟨taken ++ taken', c', ?_, ?_, hsized'⟩
    · rw [run, hstep, Option.bind_some, hrun]
      rfl
    · rw [flatMap_append, append_assoc, hbytes', ← append_assoc, hbytes,
        append_assoc, flatMap_cons]

end

end DataChain

end Xzero.Io
