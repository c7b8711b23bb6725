import Xzero.Util.Buffer

/-!
# Huge buffers

`xzero/HugeBuffer.cc`: bytes are kept in memory up to a limit, and then in a temporary file, or in a
file that is given away. What is seen of them depends on the order of calls. A buffer that is given
away is put in memory even if there is a file; the memory is a copy of the file after `getBuffer`,
to which later bytes are not added; they are written over the first ones where an input stream has
moved the position of the file; and what is read from a file replaces what is in memory
(`HugeBuffer.not_keeps`).

**Where each call finds the memory and the position as they are to be for it, everything that was
written is kept, and seen in each way** (`HugeBuffer.keeps_of_allFit`).
-/

namespace Xzero.Io

open List Util

/-- A file, with its position. -/
structure File where
  content : Bytes := []
  position : ℕ := 0

namespace File

/-- `FileUtil::write`, at the position. -/
def write (f : File) (w : Bytes) : File :=
  ⟨f.content.take f.position ++ w ++ f.content.drop (f.position + w.length), f.position + w.length⟩

theorem content_write {f : File} (h : f.position = f.content.length) (w : Bytes) :
    (f.write w).content = f.content ++ w := by
  rw [write, h, take_length, drop_of_length_le (Nat.le_add_right ..), append_nil]

end File

/-- A part of a file, as it is given to a buffer. -/
structure FilePart where
  file : File
  offset : ℕ
  size : ℕ
  le : offset + size ≤ file.content.length

/-- What `FileUtil::read` reads of it. -/
def FilePart.bytes (p : FilePart) : Bytes := (p.file.content.drop p.offset).take p.size

theorem FilePart.length_bytes (p : FilePart) : p.bytes.length = p.size := by
  have hle := p.le
  rw [bytes, length_take, length_drop]
  omega

/-- `HugeBuffer`. The file is there if `fd_` is open. -/
structure HugeBuffer where
  maxBufferSize : ℕ
  actualSize : ℕ := 0
  buffer : Bytes := []
  fd : Option File := none

namespace HugeBuffer

def tryDisplaceBufferToFile (b : HugeBuffer) : HugeBuffer :=
  match b.fd with
  | some _ => b
  | none => { b with fd := some (File.write {} b.buffer), buffer := [] }

/-- The buffer is displaced if a chunk is too large for it. -/
def makeRoom (b : HugeBuffer) (size : ℕ) : HugeBuffer :=
  if b.maxBufferSize < b.buffer.length + size then b.tryDisplaceBufferToFile else b

/-- `write`, of a reference to a buffer. -/
def write (b : HugeBuffer) (chunk : Bytes) : HugeBuffer :=
  let b := b.makeRoom chunk.length
  let b := match b.fd with
    | some f => { b with fd := some (f.write chunk) }
    | none => { b with buffer := b.buffer ++ chunk }
  { b with actualSize := b.actualSize + chunk.length }

/-- `write`, of a part of a file. `FileUtil::read` puts it where the buffer begins. -/
def writeFile (b : HugeBuffer) (chunk : FilePart) : HugeBuffer :=
  let b := b.makeRoom chunk.size
  let b := match b.fd with
    | some f => { b with fd := some (f.write chunk.bytes) }
    | none => { b with buffer := chunk.bytes }
  { b with actualSize := b.actualSize + chunk.size }

/-- `write`, of a part of a file that is given away. -/
def moveFile (b : HugeBuffer) (chunk : FilePart) : HugeBuffer :=
  if b.actualSize = 0 ∧ chunk.offset = 0 then
    { b with actualSize := chunk.size, fd := some chunk.file }
  else b.writeFile chunk

/-- `write`, of a buffer that is given away. -/
def moveBuffer (b : HugeBuffer) (chunk : Bytes) : HugeBuffer :=
  if b.actualSize = 0 then { b with buffer := chunk, actualSize := chunk.length }
  else { b with buffer := b.buffer ++ chunk, actualSize := b.actualSize + chunk.length }

/-- `getFileView`, with what the view shows. -/
def getFileView (b : HugeBuffer) : Bytes × HugeBuffer :=
  let b := b.tryDisplaceBufferToFile
  ((b.fd.getD {}).content.take b.actualSize, b)

def getBuffer (b : HugeBuffer) : Bytes × HugeBuffer :=
  let b := match b.fd with
    | some f => if b.buffer = [] then { b with buffer := f.content } else b
    | none => b
  (b.buffer, b)

/-- `getInputStream`, with what the stream has, after a number of bytes were read from it. -/
def getInputStream (b : HugeBuffer) (n : ℕ) : Bytes × HugeBuffer :=
  match b.fd with
  | some f => (f.content, { b with fd := some { f with position := min n f.content.length } })
  | none => (b.buffer, b)

/-- A call. -/
inductive Op
  | write (chunk : Bytes)
  | writeFile (chunk : FilePart)
  | moveFile (chunk : FilePart)
  | moveBuffer (chunk : Bytes)
  | getFileView
  | getBuffer
  | getInputStream (n : ℕ)

def Op.written : Op → Bytes
  | write chunk | moveBuffer chunk => chunk
  | writeFile chunk | moveFile chunk => chunk.bytes
  | getFileView | getBuffer | getInputStream _ => []

def step (b : HugeBuffer) : Op → HugeBuffer
  | .write chunk => b.write chunk
  | .writeFile chunk => b.writeFile chunk
  | .moveFile chunk => b.moveFile chunk
  | .moveBuffer chunk => b.moveBuffer chunk
  | .getFileView => b.getFileView.2
  | .getBuffer => b.getBuffer.2
  | .getInputStream n => (b.getInputStream n).2

/-- Everything that was written is there, and seen in each way. -/
structure Keeps (b : HugeBuffer) (w : Bytes) : Prop where
  size : b.actualSize = w.length
  buffer : b.getBuffer.1 = w
  fileView : b.getFileView.1 = w
  inputStream : ∀ n, (b.getInputStream n).1 = w

/-! ### Calls that keep everything -/

/-- Bytes can be added: if there is a file, then nothing is in memory, and the position is at the
end. -/
def Ready (b : HugeBuffer) : Prop := ∀ f ∈ b.fd, b.buffer = [] ∧ f.position = f.content.length

/-- A part of a file can be added: it is not read over what is in memory. -/
def ReadyForFile (b : HugeBuffer) (size : ℕ) : Prop :=
  b.Ready ∧ (b.fd = none → b.buffer = [] ∨ b.maxBufferSize < b.buffer.length + size)

/-- A call finds the buffer as it is to be, and a file that becomes that of the buffer is given as a
whole. -/
def Fits (b : HugeBuffer) : Op → Prop
  | .write _ => b.Ready
  | .writeFile chunk => b.ReadyForFile chunk.size
  | .moveFile chunk =>
    if b.actualSize = 0 ∧ chunk.offset = 0 then chunk.size = chunk.file.content.length
    else b.ReadyForFile chunk.size
  | .moveBuffer _ => b.fd = none
  | .getFileView | .getBuffer | .getInputStream _ => True

/-- Each call finds the buffer as it is to be. -/
def AllFit (b : HugeBuffer) : List Op → Prop
  | [] => True
  | op :: ops => b.Fits op ∧ (b.step op).AllFit ops

/-- What was written is in the file, and in memory too or not, or it is in memory. -/
structure Holds (b : HugeBuffer) (w : Bytes) : Prop where
  size : b.actualSize = w.length
  file : ∀ f ∈ b.fd, f.content = w ∧ (b.buffer = [] ∨ b.buffer = w)
  memory : b.fd = none → b.buffer = w

section

variable {b : HugeBuffer} {w : Bytes}

theorem Holds.tryDisplaceBufferToFile (h : b.Holds w) : b.tryDisplaceBufferToFile.Holds w := by
  rw [HugeBuffer.tryDisplaceBufferToFile]
  split
  · exact h
  · next hfd =>
    refine ⟨h.size, ?_, nofun⟩
    rintro _ ⟨⟩
    exact ⟨(File.content_write rfl _).trans (h.memory hfd), .inl rfl⟩

theorem Ready.makeRoom (h : b.Ready) (size : ℕ) : (b.makeRoom size).Ready := by
  rw [HugeBuffer.makeRoom, HugeBuffer.tryDisplaceBufferToFile]
  split_ifs
  · split
    · exact h
    · rintro _ ⟨⟩
      exact ⟨rfl, by simp [File.write]⟩
  · exact h

theorem Holds.makeRoom (h : b.Holds w) (size : ℕ) : (b.makeRoom size).Holds w := by
  rw [HugeBuffer.makeRoom]
  split
  · exact h.tryDisplaceBufferToFile
  · exact h

theorem Holds.getBuffer (h : b.Holds w) : b.getBuffer.2.Holds w ∧ b.getBuffer.1 = w := by
  rw [HugeBuffer.getBuffer]
  rcases hfd : b.fd with - | f
  · exact ⟨h, h.memory hfd⟩
  · obtain ⟨hf, hbuffer⟩ := h.file f hfd
    split_ifs with hnil
    · refine ⟨⟨h.size, ?_, nofun⟩, hf⟩
      rintro _ ⟨⟩
      exact ⟨hf, .inr hf⟩
    · exact ⟨h, hbuffer.resolve_left hnil⟩

theorem Holds.getInputStream (h : b.Holds w) (n : ℕ) :
    (b.getInputStream n).2.Holds w ∧ (b.getInputStream n).1 = w := by
  rw [HugeBuffer.getInputStream]
  rcases hfd : b.fd with - | f
  · exact ⟨h, h.memory hfd⟩
  · refine ⟨⟨h.size, ?_, nofun⟩, (h.file f hfd).1⟩
    rintro _ ⟨⟩
    exact h.file f hfd

theorem Holds.keeps (h : b.Holds w) : b.Keeps w where
  size := h.size
  buffer := h.getBuffer.2
  fileView := by
    have hfile := h.tryDisplaceBufferToFile
    rw [HugeBuffer.getFileView, hfile.size]
    rcases hfd : b.tryDisplaceBufferToFile.fd with - | f
    · rw [HugeBuffer.tryDisplaceBufferToFile] at hfd
      split at hfd
      · next f hf => exact absurd (hf.symm.trans hfd) nofun
      · cases hfd
    · rw [Option.getD_some, (hfile.file f hfd).1, take_length]
  inputStream n := (h.getInputStream n).2

theorem Holds.write (h : b.Holds w) (hready : b.Ready) (chunk : Bytes) :
    (b.write chunk).Holds (w ++ chunk) := by
  have hroom := h.makeRoom chunk.length
  have hready := hready.makeRoom chunk.length
  rw [HugeBuffer.write]
  generalize b.makeRoom chunk.length = b' at *
  have hsize : b'.actualSize + chunk.length = (w ++ chunk).length := by
    rw [hroom.size, length_append]
  rcases hfd : b'.fd with - | f
  · exact ⟨hsize, nofun, fun _ ↦ congrArg (· ++ chunk) (hroom.memory hfd)⟩
  · obtain ⟨hnil, hposition⟩ := hready f hfd
    refine ⟨hsize, ?_, nofun⟩
    rintro _ ⟨⟩
    exact ⟨by rw [File.content_write hposition, (hroom.file f hfd).1], .inl hnil⟩

theorem writeFile_eq {chunk : FilePart} (h : b.ReadyForFile chunk.size) :
    b.writeFile chunk = b.write chunk.bytes := by
  have hnil : (b.makeRoom chunk.size).fd = none → (b.makeRoom chunk.size).buffer = [] := by
    rw [HugeBuffer.makeRoom, HugeBuffer.tryDisplaceBufferToFile]
    split_ifs with hlarge
    · split
      · next f hf => exact fun hnone ↦ absurd (hf.symm.trans hnone) nofun
      · exact nofun
    · exact fun hnone ↦ (h.2 hnone).resolve_right hlarge
  rw [HugeBuffer.writeFile, HugeBuffer.write, chunk.length_bytes]
  rcases hfd : (b.makeRoom chunk.size).fd with - | f
  · simp only [hnil hfd, nil_append]
  · rfl

theorem Holds.moveFile (h : b.Holds w) {chunk : FilePart} (hfits : b.Fits (.moveFile chunk)) :
    (b.moveFile chunk).Holds (w ++ chunk.bytes) := by
  rw [Fits] at hfits
  rw [HugeBuffer.moveFile]
  split_ifs at hfits ⊢ with hfirst
  · have hw : w = [] := length_eq_zero_iff.1 (h.size.symm.trans hfirst.1)
    have hbytes : chunk.bytes = chunk.file.content := by
      rw [FilePart.bytes, hfirst.2, drop_zero, hfits, take_length]
    subst hw
    refine ⟨chunk.length_bytes.symm, ?_, nofun⟩
    rintro _ ⟨⟩
    refine ⟨hbytes.symm, .inl ?_⟩
    rcases hfd : b.fd with - | f
    · exact h.memory hfd
    · exact (h.file f hfd).2.elim id id
  · rw [writeFile_eq hfits]
    exact h.write hfits.1 _

theorem Holds.moveBuffer (h : b.Holds w) (hfd : b.fd = none) (chunk : Bytes) :
    (b.moveBuffer chunk).Holds (w ++ chunk) := by
  have hbuffer := h.memory hfd
  rw [HugeBuffer.moveBuffer]
  split
  · next hempty =>
    have hw : w = [] := length_eq_zero_iff.1 (h.size.symm.trans hempty)
    subst hw
    exact ⟨rfl, fun f hf ↦ absurd (hfd.symm.trans hf) nofun, fun _ ↦ rfl⟩
  · refine ⟨?_, fun f hf ↦ absurd (hfd.symm.trans hf) nofun, fun _ ↦ congrArg (· ++ chunk) hbuffer⟩
    rw [length_append, ← h.size]

theorem Holds.step (h : b.Holds w) {op : Op} (hfits : b.Fits op) :
    (b.step op).Holds (w ++ op.written) := by
  cases op with
  | write chunk => exact h.write hfits chunk
  | writeFile chunk =>
    rw [HugeBuffer.step, writeFile_eq hfits]
    exact h.write hfits.1 _
  | moveFile chunk => exact h.moveFile hfits
  | moveBuffer chunk => exact h.moveBuffer hfits chunk
  | getFileView => exact (append_nil w).symm ▸ h.tryDisplaceBufferToFile
  | getBuffer => exact (append_nil w).symm ▸ h.getBuffer.1
  | getInputStream n => exact (append_nil w).symm ▸ (h.getInputStream n).1

theorem Holds.run (h : b.Holds w) {ops : List Op} (hfits : b.AllFit ops) :
    (ops.foldl .step b).Holds (w ++ ops.flatMap Op.written) := by
  induction ops generalizing b w with
  | nil => exact (append_nil w).symm ▸ h
  | cons op ops ih =>
    rw [flatMap_cons, ← append_assoc]
    exact ih (h.step hfits.1) hfits.2

end

/-- **Where each call finds the buffer as it is to be, everything that was written is kept.** -/
theorem keeps_of_allFit (limit : ℕ) {ops : List Op} (h : AllFit ⟨limit, 0, [], none⟩ ops) :
    Keeps (ops.foldl step ⟨limit, 0, [], none⟩) (ops.flatMap Op.written) := by
  have hempty : Holds ⟨limit, 0, [], none⟩ [] := ⟨rfl, nofun, fun _ ↦ rfl⟩
  exact (hempty.run h).keeps

/-- Bytes go to memory, and then to a file. -/
theorem keeps_two : Keeps ([.write [1], .write [2]].foldl step ⟨1, 0, [], none⟩) [1, 2] :=
  keeps_of_allFit 1 ⟨by simp [Fits, Ready], by simp [Fits, Ready, step, write, makeRoom], trivial⟩

/-- A buffer that is given away is not put into the file. -/
theorem not_keeps : ¬∀ (limit : ℕ) (ops : List Op),
    Keeps (ops.foldl step ⟨limit, 0, [], none⟩) (ops.flatMap Op.written) := by
  intro h
  exact absurd (h 0 [.write [1], .moveBuffer [2]]).buffer (by decide)

end HugeBuffer

end Xzero.Io
