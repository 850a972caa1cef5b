import LibNokogiri.Foundation.Loop
import LibNokogiri.Common

/-! # The `gzfile_t` wrapper

zlib itself is a parameter: a reader type, what `gzdopen` makes of an open
file, and what each `gzread` returns. The two laws it carries are that a read
stores no more bytes than were asked for, and that a handle delivers finitely
many bytes in all.
-/

namespace LibNokogiri.Internal

open ByteCodec Loop

structure Zlib where
  Handle : Type
  gzdopen : OpenFile → Option Handle
  /-- The bytes stored in the buffer, or `none` for -1. -/
  gzread : Handle → Nat → Option Bytes × Handle
  gzerror : Handle → Int
  /-- A bound on the bytes still to come. -/
  pending : Handle → Nat
  gzread_length : ∀ h len bytes, (gzread h len).1 = some bytes → bytes.length ≤ len
  gzread_pending : ∀ h len bytes, (gzread h len).1 = some bytes →
    bytes.length + pending (gzread h len).2 ≤ pending h

structure GzFileT (z : Zlib) where
  file : Fd
  gzFile : Option z.Handle
  error : Int := 0

namespace GzFileT

variable {z : Zlib}

/-- `gzfile_t(fd_t &)`: the new object and what is left of the argument.
`gzdopen` returns no handle for descriptor -1. -/
def ofFd (z : Zlib) (file : Fd) : GzFileT z × Fd :=
  let moved := FdT.moveConstruct file
  ({ file := moved.1, gzFile := moved.1.fd.bind z.gzdopen }, moved.2)

def gzread (self : GzFileT z) (len : Nat) : Option Bytes × GzFileT z :=
  match self.gzFile with
  | none => (none, self)
  | some h => ((z.gzread h len).1, { self with gzFile := some (z.gzread h len).2 })

def pending (self : GzFileT z) : Nat :=
  match self.gzFile with
  | none => 0
  | some h => z.pending h

theorem gzread_length {self : GzFileT z} {len : Nat} {bytes : Bytes}
    (h : (self.gzread len).1 = some bytes) : bytes.length ≤ len := by
  unfold gzread at h
  cases hgz : self.gzFile with
  | none => simp [hgz] at h
  | some handle =>
      simp only [hgz] at h
      exact z.gzread_length handle len bytes h

theorem gzread_pending {self : GzFileT z} {len : Nat} {bytes : Bytes}
    (h : (self.gzread len).1 = some bytes) :
    bytes.length + (self.gzread len).2.pending ≤ self.pending := by
  unfold gzread at h ⊢
  cases hgz : self.gzFile with
  | none => simp [hgz] at h
  | some handle =>
      simp only [hgz] at h
      simpa only [pending, hgz] using z.gzread_pending handle len bytes h

end GzFileT

def blockSize : Nat := 8 * 1024

/-- The locals of `decompress_to`, the two files it works on, and the number
of `write` calls made so far. -/
structure Decompression (z : Zlib) where
  gz : GzFileT z
  file : Fd
  calls : Nat
  tmp : Bytes
  decmpressed : Int32

namespace Decompression

variable {z : Zlib} (writes : Nat → WriteOutcome)

def start (gz : GzFileT z) (file : Fd) : Decompression z where
  gz := gz
  file := file
  calls := 0
  tmp := List.replicate blockSize 0
  decmpressed := 0

def write (self : Decompression z) (data : Bytes) : Bool × Decompression z :=
  let r := self.file.write data (writes self.calls)
  (r.1, { self with file := r.2, calls := self.calls + 1 })

/-- One round of the block loop. It stops with `gzread_ret` when that is not a
whole block, and with `none` where the source returns -1. -/
def copyBlock (self : Decompression z) :
    Outcome (Decompression z) (Option Int × Decompression z) :=
  let r := self.gz.gzread blockSize
  match r.1 with
  | none => .stop (some (-1), { self with gz := r.2 })
  | some bytes =>
      let self := { self with gz := r.2, tmp := bytes ++ self.tmp.drop bytes.length }
      if bytes.length = blockSize then
        let w := self.write writes self.tmp
        if w.1 then
          .more { w.2 with
            decmpressed := w.2.decmpressed + Int32.ofNat bytes.length
            tmp := List.replicate blockSize 0 }
        else .stop (none, w.2)
      else .stop (some bytes.length, self)

def copyTail : Bytes → Decompression z → Bool × Decompression z
  | [], self => (true, self)
  | byte :: rest, self =>
      let w := self.write writes [byte]
      if w.1 then copyTail rest w.2 else (false, w.2)

theorem write_gz (self : Decompression z) (data : Bytes) :
    (self.write writes data).2.gz = self.gz := rfl

theorem copyBlock_pending (self next : Decompression z)
    (h : copyBlock writes self = .more next) : next.gz.pending < self.gz.pending := by
  unfold copyBlock at h
  cases hr : (self.gz.gzread blockSize).1 with
  | none => simp [hr] at h
  | some bytes =>
      have hpending := GzFileT.gzread_pending hr
      simp only [hr] at h
      split at h
      · rename_i hfull
        split at h
        · cases h
          simp only [write_gz]
          have hpos : 0 < blockSize := by decide
          omega
        · cases h
      · cases h

def copyBlocks (self : Decompression z) : Option Int × Decompression z :=
  loop (copyBlock writes) (fun s => s.gz.pending) (copyBlock_pending writes) self

/-- What follows the block loop: the bytes it has left in `tmp`, and the total. -/
def finish (r : Option Int × Decompression z) : Int32 × Decompression z :=
  match r with
  | (none, s) => (-1, s)
  | (some gzreadRet, s) =>
      if gzreadRet < 0 then (-1, s)
      else
        let t := copyTail writes (s.tmp.take gzreadRet.toNat) s
        if t.1 then
          let total := t.2.decmpressed + Int32.ofInt gzreadRet
          (total, { t.2 with decmpressed := total })
        else (-1, t.2)

end Decompression

/-- `gzfile_t::decompress_to`, with the outcome of the n-th `write` call given
by `writes n`. -/
def GzFileT.decompressTo {z : Zlib} (self : GzFileT z) (file : Fd)
    (writes : Nat → WriteOutcome) : Int32 × Decompression z :=
  Decompression.finish writes ((Decompression.start self file).copyBlocks writes)

/-! ## What the copy leaves of the output file -/

theorem FdT.write_rest (self : Fd) (value : Bytes) (outcome : WriteOutcome) :
    (self.write value outcome).2 = { self with fd := (self.write value outcome).2.fd } := by
  unfold FdT.write
  split <;> rfl

namespace Decompression

variable {z : Zlib} {writes : Nat → WriteOutcome} {file : Fd}

def Writes (file : Fd) (self : Decompression z) : Prop :=
  self.file = { file with fd := self.file.fd }

def Outputs (P : Fd → Prop) (self : Decompression z) : Prop := P self.file

variable {P : Fd → Prop}

theorem copyBlock_keeps (hwrite : ∀ file data outcome, P file → P (file.write data outcome).2)
    (self : Decompression z) (h : self.Outputs P) :
    (copyBlock writes self).All (Outputs P) fun r => r.2.Outputs P := by
  unfold copyBlock
  dsimp only
  split
  · exact h
  · split
    · split
      · exact hwrite _ _ _ h
      · exact hwrite _ _ _ h
    · exact h

theorem copyBlocks_keeps (hwrite : ∀ file data outcome, P file → P (file.write data outcome).2)
    {self : Decompression z} (h : self.Outputs P) : (self.copyBlocks writes).2.Outputs P :=
  (loop_ends self).invariant (copyBlock_keeps hwrite) h

theorem copyTail_keeps (hwrite : ∀ file data outcome, P file → P (file.write data outcome).2)
    {self : Decompression z} (bytes : Bytes) (h : self.Outputs P) :
    (copyTail writes bytes self).2.Outputs P := by
  induction bytes generalizing self with
  | nil => exact h
  | cons byte rest ih =>
      have hnext : (self.write writes [byte]).2.Outputs P := hwrite _ _ _ h
      unfold copyTail
      dsimp only
      split
      · exact ih hnext
      · exact hnext

end Decompression

theorem GzFileT.decompressTo_keeps {z : Zlib} {P : Fd → Prop} (self : GzFileT z) {file : Fd}
    (writes : Nat → WriteOutcome)
    (hwrite : ∀ file data outcome, P file → P (file.write data outcome).2) (h : P file) :
    (self.decompressTo file writes).2.Outputs P := by
  have hblocks : ((Decompression.start self file).copyBlocks writes).2.Outputs P :=
    Decompression.copyBlocks_keeps hwrite h
  unfold decompressTo Decompression.finish
  split
  · rename_i s hs
    rw [hs] at hblocks
    exact hblocks
  · rename_i gzreadRet s hs
    rw [hs] at hblocks
    dsimp only
    split
    · exact hblocks
    · split
      · exact Decompression.copyTail_keeps hwrite _ hblocks
      · exact Decompression.copyTail_keeps hwrite _ hblocks

theorem GzFileT.decompressTo_writes {z : Zlib} (self : GzFileT z) (file : Fd)
    (writes : Nat → WriteOutcome) : (self.decompressTo file writes).2.Writes file := by
  apply self.decompressTo_keeps (P := fun output => output = { file with fd := output.fd }) writes
  · intro output data outcome h
    rw [FdT.write_rest output data outcome, h]
  · rfl

end LibNokogiri.Internal
