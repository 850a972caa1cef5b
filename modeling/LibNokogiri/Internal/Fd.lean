import LibNokogiri.Internal.OpenFile

/-! # The `fd_t` file wrapper

The wrapper caches the file length on first use and keeps an end-of-file flag
that a seek recomputes and an empty read sets. It is generic in how a
descriptor is represented: file access uses open file descriptions, and the
accounting of descriptors uses their numbers.
-/

namespace LibNokogiri.Internal

open ByteCodec Framing

/-- The representation of a descriptor, with the one standing for -1. -/
class Descriptor (δ : Type) where
  invalid : δ

structure FdT (δ : Type) where
  fd : δ
  eof : Bool := false
  length : Int := -1
  temp : Bool := false
  filename : String := ""
deriving DecidableEq

namespace FdT

section Ownership

variable {δ : Type}

def default [Descriptor δ] : FdT δ := { fd := Descriptor.invalid }

def swap (self desc : FdT δ) : FdT δ × FdT δ :=
  ({ fd := desc.fd, eof := desc.eof, length := desc.length, temp := desc.temp,
     filename := desc.filename },
   { fd := self.fd, eof := self.eof, length := self.length, temp := self.temp,
     filename := self.filename })

/-- `fd_t(fd_t &&)`: the new object and what is left in the old one. -/
def moveConstruct [Descriptor δ] (other : FdT δ) : FdT δ × FdT δ := swap default other

def moveAssign (self other : FdT δ) : FdT δ × FdT δ := swap self other

@[simp] theorem swap_eq (self desc : FdT δ) : swap self desc = (desc, self) := rfl

@[simp] theorem moveConstruct_eq [Descriptor δ] (other : FdT δ) :
    moveConstruct other = (other, default) := rfl

@[simp] theorem moveAssign_eq (self other : FdT δ) : moveAssign self other = (other, self) := rfl

end Ownership

end FdT

/-- A `fd_t` together with what its descriptor refers to; `none` is -1. -/
abbrev Fd := FdT (Option OpenFile)

instance : Descriptor (Option OpenFile) := ⟨none⟩

/-- Types that the templated reads accept: their size and object representation. -/
class Pod (α : Type) where
  size : Nat
  ofBytes : Order → Bytes → α

instance (α : Type) [Scalar α] : Pod α := ⟨Scalar.width α, load⟩

namespace FdT

def isEOF (self : Fd) : Bool := self.eof

/-- `read(void *, size_t, nullptr_t)`: the bytes read, or `none` for -1. -/
def readRaw (self : Fd) (bufferLen : Nat) : Option Bytes × Fd :=
  match self.fd with
  | none => (none, self)
  | some f =>
      let r := fdread f bufferLen
      (some r.1, { self with
        fd := some r.2
        eof := self.eof || (r.1.length == 0 && bufferLen != 0) })

/-- `length()`, which fills the cache. -/
def lengthOf (self : Fd) : Int × Fd :=
  if self.length ≠ -1 then (self.length, self)
  else
    let length : Int :=
      match self.fd with
      | none => -1
      | some f => f.file.size
    (length, { self with length })

def seek (self : Fd) (offset : Int) (whence : Whence) : Int × Fd :=
  let r : Int × Option OpenFile :=
    match self.fd with
    | none => (-1, none)
    | some f => ((fdseek f offset whence).1, some (fdseek f offset whence).2)
  let l := lengthOf { self with fd := r.2 }
  (r.1, { l.2 with eof := r.1 == l.1 })

def tell (self : Fd) : Int :=
  match self.fd with
  | none => -1
  | some f => fdtell f

def head (self : Fd) : Bool × Fd :=
  let r := self.seek 0 .set
  (r.1 == 0, r.2)

/-- `tail()`: a seek to the length, as far as that is known. -/
def tail (self : Fd) : Bool × Fd :=
  let offset := self.lengthOf
  if offset.1 < 0 then (false, offset.2)
  else
    let r := offset.2.seek offset.1 .set
    (r.1 == offset.1, r.2)

/-- `seekRel(offset)`; the sum is an `off_t`. -/
def seekRel (self : Fd) (offset : Int) : Bool × Fd :=
  let currentPos := self.tell
  if currentPos = -1 ∨ ptrdiffT (currentPos + offset) < 0 then (false, self)
  else
    let r := self.seek offset .cur
    (r.1 == ptrdiffT (currentPos + offset), r.2)

/-- `resize(newSize)`, which leaves the cached length alone. -/
def resize (self : Fd) (newSize : Int) (granted : Bool) : Bool × Fd :=
  match self.fd with
  | none => (false, self)
  | some f =>
      let r := fdtruncate f newSize granted
      (r.1 == 0, { self with fd := some r.2 })

/-- `read(void *, size_t)`: the bytes, when all of them were there. -/
def readExact (self : Fd) (valueLen : Nat) : Option Bytes × Fd :=
  match self.readRaw valueLen with
  | (none, fd) => (none, fd)
  | (some bytes, fd) => (if bytes.length = valueLen then some bytes else none, fd)

/-- `read(std::array<T, N> &)`: whether all bytes were there, and what the array
holds then. -/
def readArray (self : Fd) (data : Bytes) : Bool × Bytes × Fd :=
  match self.readRaw data.length with
  | (none, fd) => (false, data, fd)
  | (some bytes, fd) => (bytes.length == data.length, bytes ++ data.drop bytes.length, fd)

def read (α : Type) [Pod α] (host : Order) (self : Fd) : Option α × Fd :=
  let r := self.readExact (Pod.size α)
  (r.1.map (Pod.ofBytes host), r.2)

def write (self : Fd) (value : Bytes) (outcome : WriteOutcome) : Bool × Fd :=
  match self.fd with
  | none => (false, self)
  | some f =>
      let r := fdwrite f value outcome
      (r.1 == value.length, { self with fd := some r.2 })

/-! ## The state a call leaves behind -/

/-- The cached length, once there is one, is the size of the file. -/
def LengthFresh (self : Fd) (f : RegularFile) : Prop := self.length = -1 ∨ self.length = f.size

def OnFile (self : Fd) (f : RegularFile) : Prop :=
  (∃ pos, self.fd = some ⟨f, pos⟩) ∧ self.LengthFresh f

def Measured (self : Fd) (f : RegularFile) : Prop :=
  (∃ pos, self.fd = some ⟨f, pos⟩) ∧ self.length = f.size

theorem Measured.onFile {self : Fd} {f : RegularFile} (h : self.Measured f) : self.OnFile f :=
  ⟨h.1, .inr h.2⟩

def movedTo (self : Fd) (f : RegularFile) (pos : Nat) : Fd := { self with fd := some ⟨f, pos⟩ }

def placedAt (self : Fd) (f : RegularFile) (pos : Nat) : Fd :=
  { self with fd := some ⟨f, pos⟩, eof := decide (pos = f.size), length := f.size }

section Simp

variable (self : Fd) (f g : RegularFile) (pos pos' : Nat)

@[simp] theorem movedTo_fd : (self.movedTo f pos).fd = some ⟨f, pos⟩ := rfl
@[simp] theorem movedTo_eof : (self.movedTo f pos).eof = self.eof := rfl
@[simp] theorem placedAt_fd : (self.placedAt f pos).fd = some ⟨f, pos⟩ := rfl
@[simp] theorem placedAt_eof : (self.placedAt f pos).eof = decide (pos = f.size) := rfl

@[simp] theorem movedTo_movedTo : (self.movedTo g pos').movedTo f pos = self.movedTo f pos := rfl

@[simp] theorem movedTo_placedAt : (self.movedTo g pos').placedAt f pos = self.placedAt f pos := rfl

@[simp] theorem placedAt_placedAt : (self.placedAt g pos').placedAt f pos = self.placedAt f pos := rfl

theorem lengthFresh_placedAt : (self.placedAt f pos).LengthFresh f := .inr rfl

theorem LengthFresh.movedTo {self : Fd} {f : RegularFile} (h : self.LengthFresh f) :
    (self.movedTo f pos).LengthFresh f := h

end Simp

section Spec

variable {self : Fd} {f : RegularFile} {pos : Nat}

theorem tell_eq (hfd : self.fd = some ⟨f, pos⟩) : self.tell = pos := by
  simp [tell, hfd, fdtell]

theorem readRaw_eq (hfd : self.fd = some ⟨f, pos⟩) (len : Nat) :
    self.readRaw len = (some (slice f.content pos len),
      { self with
        fd := some ⟨f, pos + (slice f.content pos len).length⟩
        eof := self.eof || ((slice f.content pos len).length == 0 && len != 0) }) := by
  simp [readRaw, hfd, fdread]

theorem readExact_of_le (hfd : self.fd = some ⟨f, pos⟩) {len : Nat} (h : pos + len ≤ f.size) :
    self.readExact len = (some (slice f.content pos len), self.movedTo f (pos + len)) := by
  have hlen : (slice f.content pos len).length = len := slice_length_of_le h
  have heof : (len == 0 && len != 0) = false := by cases len <;> rfl
  simp only [readExact, readRaw_eq hfd, hlen, if_true, heof, Bool.or_false, movedTo]

theorem readExact_of_lt (hfd : self.fd = some ⟨f, pos⟩) {len : Nat} (hpos : 0 < len)
    (h : f.size < pos + len) : (self.readExact len).1 = none := by
  have hlen : (slice f.content pos len).length ≠ len := by
    rw [slice_length]
    unfold RegularFile.size at h
    omega
  simp only [readExact, readRaw_eq hfd, if_neg hlen]

theorem readArray_of_le (hfd : self.fd = some ⟨f, pos⟩) {data : Bytes}
    (h : pos + data.length ≤ f.size) :
    self.readArray data =
      (true, slice f.content pos data.length, self.movedTo f (pos + data.length)) := by
  have hlen : (slice f.content pos data.length).length = data.length := slice_length_of_le h
  have heof : (data.length == 0 && data.length != 0) = false := by cases data.length <;> rfl
  simp only [readArray, readRaw_eq hfd, hlen, beq_self_eq_true, List.drop_length, List.append_nil,
    heof, Bool.or_false, movedTo]

/-- Whatever a read gives, it stays on the file and leaves the cached length. -/
theorem readExact_onFile (hfd : self.fd = some ⟨f, pos⟩) (len : Nat) :
    (∃ pos', (self.readExact len).2.fd = some ⟨f, pos'⟩) ∧
      (self.readExact len).2.length = self.length := by
  simp only [readExact, readRaw_eq hfd]
  exact ⟨⟨_, rfl⟩, trivial⟩

section Typed

variable {α : Type} [Pod α] {host : Order}

theorem read_of_le (hfd : self.fd = some ⟨f, pos⟩) (h : pos + Pod.size α ≤ f.size) :
    read α host self =
      (some (Pod.ofBytes host (slice f.content pos (Pod.size α))),
        self.movedTo f (pos + Pod.size α)) := by
  simp only [read, readExact_of_le hfd h, Option.map_some]

theorem read_of_lt (hfd : self.fd = some ⟨f, pos⟩) (hpos : 0 < Pod.size α)
    (h : f.size < pos + Pod.size α) : (read α host self).1 = none := by
  simp only [read, readExact_of_lt hfd hpos h, Option.map_none]

theorem read_onFile (α : Type) [Pod α] (host : Order) (hfd : self.fd = some ⟨f, pos⟩) :
    (∃ pos', (read α host self).2.fd = some ⟨f, pos'⟩) ∧
      (read α host self).2.length = self.length :=
  readExact_onFile hfd (Pod.size α)

theorem read_congr (α : Type) [Pod α] (host : Order) {other : Fd} (h : self.fd = other.fd) :
    (read α host self).1 = (read α host other).1 ∧
      (read α host self).2.fd = (read α host other).2.fd := by
  cases hfd : other.fd with
  | none =>
      rw [hfd] at h
      simp [read, readExact, readRaw, h, hfd]
  | some g =>
      rw [hfd] at h
      simp [read, readExact, readRaw, h, hfd]

theorem read_some (hfd : self.fd = some ⟨f, pos⟩) (hpos : 0 < Pod.size α) {value : α}
    (h : (read α host self).1 = some value) :
    pos + Pod.size α ≤ f.size ∧ (read α host self).2.fd = some ⟨f, pos + Pod.size α⟩ := by
  by_cases hle : pos + Pod.size α ≤ f.size
  · exact ⟨hle, by rw [read_of_le hfd hle]; rfl⟩
  · rw [read_of_lt hfd hpos (Nat.not_le.mp hle)] at h
    cases h

end Typed

theorem lengthOf_eq (hfd : self.fd = some ⟨f, pos⟩) (hlen : self.LengthFresh f) :
    self.lengthOf = ((f.size : Int), { self with length := f.size }) := by
  unfold lengthOf
  rcases hlen with hlen | hlen
  · simp [hlen, hfd]
  · have hne : self.length ≠ -1 := by omega
    rw [if_pos hne, hlen]
    simp only [← hlen]

theorem seek_eq (hfd : self.fd = some ⟨f, pos⟩) (hlen : self.LengthFresh f) {offset : Int}
    {whence : Whence} {result : Int} {pos' : Nat}
    (hseek : fdseek ⟨f, pos⟩ offset whence = (result, ⟨f, pos'⟩)) :
    self.seek offset whence =
      (result, { self with
        fd := some ⟨f, pos'⟩, eof := result == (f.size : Int), length := f.size }) := by
  have hl : lengthOf { self with fd := some ⟨f, pos'⟩ } =
      ((f.size : Int), { self with fd := some ⟨f, pos'⟩, length := f.size }) :=
    lengthOf_eq rfl hlen
  simp only [seek, hfd, hseek, hl]

private theorem natCast_beq (m n : Nat) : ((m : Int) == (n : Int)) = decide (m = n) := by
  rw [Bool.beq_eq_decide_eq]
  exact decide_eq_decide.mpr Int.ofNat_inj

theorem seek_set (hfd : self.fd = some ⟨f, pos⟩) (hlen : self.LengthFresh f) {offset : Nat}
    (h : offset < offLimit) :
    self.seek offset .set = ((offset : Int), self.placedAt f offset) := by
  rw [seek_eq hfd hlen (fdseek_set ⟨f, pos⟩ h), natCast_beq]
  rfl

theorem seek_cur (hfd : self.fd = some ⟨f, pos⟩) (hlen : self.LengthFresh f) {offset : Nat}
    (h : pos + offset < offLimit) :
    self.seek offset .cur = (((pos + offset : Nat) : Int), self.placedAt f (pos + offset)) := by
  have hseek := fdseek_cur ⟨f, pos⟩ offset
  rw [if_pos h] at hseek
  rw [seek_eq hfd hlen hseek, natCast_beq]
  rfl

theorem seek_cur_far (hfd : self.fd = some ⟨f, pos⟩) (hlen : self.LengthFresh f) {offset : Nat}
    (h : offLimit ≤ pos + offset) : (self.seek offset .cur).1 = -1 := by
  have hseek := fdseek_cur ⟨f, pos⟩ offset
  rw [if_neg (Nat.not_lt.mpr h)] at hseek
  rw [seek_eq hfd hlen hseek]

theorem seek_measured (hfd : self.fd = some ⟨f, pos⟩) (hlen : self.LengthFresh f) (offset : Int)
    (whence : Whence) : (self.seek offset whence).2.Measured f := by
  cases hseek : fdseek ⟨f, pos⟩ offset whence with
  | mk result g =>
      have hfile : g = ⟨f, g.pos⟩ := by
        have h := fdseek_file ⟨f, pos⟩ offset whence
        rw [hseek] at h
        cases g
        simp_all
      rw [hfile] at hseek
      rw [seek_eq hfd hlen hseek]
      exact ⟨⟨g.pos, rfl⟩, rfl⟩

theorem lengthOf_fd (self : Fd) : self.lengthOf.2.fd = self.fd := by
  unfold lengthOf
  split <;> rfl

theorem seek_fd (hfd : self.fd = some ⟨f, pos⟩) (offset : Int) (whence : Whence) :
    (self.seek offset whence).1 = (fdseek ⟨f, pos⟩ offset whence).1 ∧
      (self.seek offset whence).2.fd = some (fdseek ⟨f, pos⟩ offset whence).2 := by
  simp only [seek, hfd, lengthOf_fd, and_self]

theorem seek_set_fd (hfd : self.fd = some ⟨f, pos⟩) {offset : Nat} (h : offset < offLimit) :
    (self.seek offset .set).1 = offset ∧ (self.seek offset .set).2.fd = some ⟨f, offset⟩ := by
  have hseek := seek_fd hfd offset .set
  rwa [fdseek_set ⟨f, pos⟩ h] at hseek

theorem seek_cur_fd (hfd : self.fd = some ⟨f, pos⟩) (offset : Nat) :
    ((self.seek offset .cur).1 = -1 ∧ (self.seek offset .cur).2.fd = some ⟨f, pos⟩) ∨
      ((self.seek offset .cur).1 = ((pos + offset : Nat) : Int) ∧
        (self.seek offset .cur).2.fd = some ⟨f, pos + offset⟩) := by
  have hseek := seek_fd hfd offset .cur
  rw [fdseek_cur] at hseek
  split at hseek
  · exact .inr hseek
  · exact .inl hseek

/-- A relative seek that reports where it was meant to go has gone there: so
far behind -1 a failed one does not pass for it. -/
theorem seek_cur_lands (hfd : self.fd = some ⟨f, pos⟩) {offset : Nat}
    (hlt : offset + pos < 2 ^ 64 - 1)
    (hat : (self.seek offset .cur).1 = ptrdiffT ((offset + pos : Nat) : Int)) :
    (self.seek offset .cur).2.fd = some ⟨f, pos + offset⟩ := by
  rcases seek_cur_fd hfd offset with ⟨hfailed, _⟩ | ⟨_, hlands⟩
  · rw [hfailed] at hat
    exact absurd hat.symm (ptrdiffT_ne_neg_one hlt)
  · exact hlands

theorem head_eq (hfd : self.fd = some ⟨f, pos⟩) (hlen : self.LengthFresh f) :
    self.head = (true, self.placedAt f 0) := by
  have h : self.seek 0 .set = (0, self.placedAt f 0) := seek_set hfd hlen (by decide : 0 < offLimit)
  simp [head, h]

end Spec

/-! ## What a call leaves alone -/

theorem lengthOf_kept (self : Fd) : self.lengthOf.2 = { self with length := self.lengthOf.1 } := by
  unfold lengthOf
  split <;> rfl

theorem seek_kept (self : Fd) (offset : Int) (whence : Whence) :
    (self.seek offset whence).2 =
      { self with
        fd := (self.seek offset whence).2.fd
        eof := (self.seek offset whence).2.eof
        length := (self.seek offset whence).2.length } := by
  simp only [seek, lengthOf_kept]

theorem readExact_kept (self : Fd) (len : Nat) :
    (self.readExact len).2 =
      { self with fd := (self.readExact len).2.fd, eof := (self.readExact len).2.eof } := by
  unfold readExact readRaw
  cases self.fd <;> rfl

theorem read_kept (α : Type) [Pod α] (host : Order) (self : Fd) :
    (read α host self).2 =
      { self with fd := (read α host self).2.fd, eof := (read α host self).2.eof } :=
  readExact_kept self (Pod.size α)

/-! ## The bytes behind the wrapper -/

def content (self : Fd) : Bytes :=
  match self.fd with
  | none => []
  | some f => f.file.content

theorem OnFile.content {self : Fd} {f : RegularFile} (h : self.OnFile f) :
    self.content = f.content := by
  obtain ⟨⟨pos, hfd⟩, _⟩ := h
  simp only [FdT.content, hfd]

@[simp] theorem seek_content (self : Fd) (offset : Int) (whence : Whence) :
    (self.seek offset whence).2.content = self.content := by
  cases hfd : self.fd with
  | none => simp only [content, seek, hfd, lengthOf_fd]
  | some f => simp only [content, seek, hfd, lengthOf_fd, fdseek_file]

@[simp] theorem readExact_content (self : Fd) (len : Nat) :
    (self.readExact len).2.content = self.content := by
  cases hfd : self.fd with
  | none => simp [content, readExact, readRaw, hfd]
  | some f => simp [content, readExact, readRaw, fdread, hfd]

@[simp] theorem read_content (α : Type) [Pod α] (host : Order) (self : Fd) :
    (read α host self).2.content = self.content :=
  readExact_content self (Pod.size α)

end FdT

end LibNokogiri.Internal
