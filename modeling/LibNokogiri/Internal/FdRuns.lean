import LibNokogiri.Foundation.Run
import LibNokogiri.Internal.Fd

/-! # Runs of calls on a wrapper

Besides its descriptor a wrapper keeps an end-of-file flag and the length of
the file, cached by the first call that needs it. The flag is right in every
run of calls that leave the file alone. The cached length is right as long as
no call changes the size of the file behind it.
-/

namespace LibNokogiri.Internal

open ByteCodec Framing Run

/-- A call on a wrapper. How much of a `write` is stored, and whether a
`resize` is granted, is for the kernel to say. -/
inductive FdCall
  | length
  | seek (offset : Int) (whence : Whence)
  | seekRel (offset : Int)
  | head
  | tail
  | read (bufferLen : Nat)
  | write (value : Bytes) (outcome : WriteOutcome)
  | resize (newSize : Int) (granted : Bool)

namespace FdCall

def apply (self : Fd) : FdCall → Fd
  | .length => self.lengthOf.2
  | .seek offset whence => (self.seek offset whence).2
  | .seekRel offset => (self.seekRel offset).2
  | .head => self.head.2
  | .tail => self.tail.2
  | .read bufferLen => (self.readRaw bufferLen).2
  | .write value outcome => (self.write value outcome).2
  | .resize newSize granted => (self.resize newSize granted).2

def step (self : Fd) (call : FdCall) : Option Fd := some (call.apply self)

end FdCall

namespace FdT

section Calls

variable {self : Fd} {f : RegularFile} {pos : Nat}

/-- A seek reports the position it comes to, and raises the flag exactly when
that is the end of the file. -/
theorem seek_lands (hfile : self.OnFile f) (offset : Int) (whence : Whence) :
    let r := self.seek offset whence
    r.2.OnFile f ∧ (r.2.eof = true ↔ r.1 = f.size) ∧ (r.1 ≠ -1 → r.2.tell = r.1) := by
  obtain ⟨⟨pos, hfd⟩, hlen⟩ := hfile
  rcases fdseek_cases ⟨f, pos⟩ offset whence with ⟨pos', hseek⟩ | hseek
  · rw [seek_eq hfd hlen hseek]
    exact ⟨⟨⟨pos', rfl⟩, .inr rfl⟩, beq_iff_eq, fun _ => tell_eq rfl⟩
  · rw [seek_eq hfd hlen hseek]
    exact ⟨⟨⟨pos, rfl⟩, .inr rfl⟩, beq_iff_eq, fun hne => absurd rfl hne⟩

theorem tail_eq (hfile : self.OnFile f) : self.tail = (true, self.placedAt f f.size) := by
  obtain ⟨⟨pos, hfd⟩, hlen⟩ := hfile
  have hfd' : ({ self with length := f.size } : Fd).fd = some ⟨f, pos⟩ := hfd
  have hseek : FdT.seek { self with length := f.size } (f.size : Nat) .set =
      ((f.size : Int), self.placedAt f f.size) := seek_set hfd' (.inr rfl) f.size_lt
  have hnonneg : ¬ (f.size : Int) < 0 := Int.not_lt.mpr (Int.natCast_nonneg _)
  simp only [tail, lengthOf_eq hfd hlen, if_neg hnonneg, hseek, beq_self_eq_true]

theorem seekRel_cases (self : Fd) (offset : Int) :
    self.seekRel offset = (false, self) ∨
      ((self.seekRel offset).2 = (self.seek offset .cur).2 ∧
        ((self.seekRel offset).1 = true → (self.seek offset .cur).1 ≠ -1)) := by
  unfold seekRel
  dsimp only
  split
  · exact .inl rfl
  · rename_i hrange
    refine .inr ⟨rfl, fun hsame hfailed => hrange (.inr ?_)⟩
    rw [hfailed, beq_iff_eq] at hsame
    rw [← hsame]
    decide

theorem readRaw_nil_iff (hfd : self.fd = some ⟨f, pos⟩) {len : Nat} (hpos : 0 < len) :
    (self.readRaw len).1 = some [] ↔ f.size ≤ pos := by
  rw [readRaw_eq hfd, Option.some_inj, ← List.length_eq_zero_iff, slice_length]
  unfold RegularFile.size
  omega

end Calls

end FdT

namespace FdCall

def Reads : FdCall → Prop
  | .write _ _ | .resize _ _ => False
  | _ => True

def lands (self : Fd) : FdCall → Bool
  | .seek offset whence => (self.seek offset whence).1 != -1
  | .seekRel offset => (self.seekRel offset).1
  | .head => self.head.1
  | .tail => self.tail.1
  | _ => false

theorem reads_of_lands {self : Fd} {call : FdCall} (h : call.lands self = true) : call.Reads := by
  cases call with
  | write value outcome => cases h
  | resize newSize granted => cases h
  | length => trivial
  | seek offset whence => trivial
  | seekRel offset => trivial
  | head => trivial
  | tail => trivial
  | read bufferLen => trivial

/-- All that a call which leaves the file alone can do: a seek, a read, or
nothing but filling the cache. -/
theorem Reads.cases {self : Fd} {f : RegularFile} {call : FdCall} (hreads : call.Reads)
    (h : self.OnFile f) :
    (∃ offset whence, call.apply self = (self.seek offset whence).2 ∧
        (call.lands self = true → (self.seek offset whence).1 ≠ -1)) ∨
      call.lands self = false ∧
        ((∃ len, call.apply self = (self.readRaw len).2) ∨ call.apply self = self ∨
          call.apply self = { self with length := f.size }) := by
  cases call with
  | length =>
      obtain ⟨⟨pos, hfd⟩, hlen⟩ := h
      refine .inr ⟨rfl, .inr (.inr ?_)⟩
      simp only [apply, FdT.lengthOf_eq hfd hlen]
  | seek offset whence => exact .inl ⟨offset, whence, rfl, bne_iff_ne.mp⟩
  | seekRel offset =>
      rcases FdT.seekRel_cases self offset with hrefused | ⟨hsame, hne⟩
      · refine .inr ⟨?_, .inr (.inl ?_)⟩
        · rw [lands, hrefused]
        · rw [apply, hrefused]
      · exact .inl ⟨offset, .cur, hsame, hne⟩
  | head =>
      refine .inl ⟨0, .set, rfl, fun hlands => ?_⟩
      have hzero : (self.seek 0 .set).1 = 0 := beq_iff_eq.mp hlands
      rw [hzero]
      decide
  | tail =>
      have htail := FdT.tail_eq h
      obtain ⟨⟨pos, hfd⟩, hlen⟩ := h
      have hseek := FdT.seek_set hfd hlen f.size_lt
      refine .inl ⟨(f.size : Int), .set, ?_, fun _ => ?_⟩
      · rw [apply, htail]
        exact (congrArg Prod.snd hseek).symm
      · rw [show (self.seek (f.size : Int) .set).1 = f.size from congrArg Prod.fst hseek]
        omega
  | read bufferLen => exact .inr ⟨rfl, .inl ⟨bufferLen, rfl⟩⟩
  | write value outcome => exact hreads.elim
  | resize newSize granted => exact hreads.elim

theorem Reads.onFile {self : Fd} {f : RegularFile} {call : FdCall} (hreads : call.Reads)
    (h : self.OnFile f) : (call.apply self).OnFile f := by
  rcases hreads.cases h with ⟨offset, whence, hseek, _⟩ | ⟨_, ⟨len, hread⟩ | hsame | hlength⟩
  · rw [hseek]
    exact (FdT.seek_lands h offset whence).1
  · obtain ⟨⟨pos, hfd⟩, hlen⟩ := h
    rw [hread, FdT.readRaw_eq hfd]
    exact ⟨⟨_, rfl⟩, hlen⟩
  · rwa [hsame]
  · rw [hlength]
    exact ⟨h.1, .inr rfl⟩

end FdCall

/-! ## The end-of-file flag -/

namespace FdT

def EofAtEnd (f : RegularFile) (self : Fd) : Prop := self.eof = true → (f.size : Int) ≤ self.tell

variable {self later : Fd} {f : RegularFile}

theorem seek_eofAtEnd (hfile : self.OnFile f) (offset : Int) (whence : Whence) :
    EofAtEnd f (self.seek offset whence).2 := by
  intro heof
  obtain ⟨_, hflag, htell⟩ := seek_lands hfile offset whence
  have hat := hflag.mp heof
  have hne : (self.seek offset whence).1 ≠ -1 := by omega
  rw [htell hne, hat]

theorem readRaw_eofAtEnd (hfile : self.OnFile f) (hend : EofAtEnd f self) (len : Nat) :
    EofAtEnd f (self.readRaw len).2 := by
  obtain ⟨⟨pos, hfd⟩, _⟩ := hfile
  rw [readRaw_eq hfd]
  intro heof
  have hpos : f.size ≤ pos := by
    rcases Bool.or_eq_true_iff.mp heof with heof | hnothing
    · have hle := hend heof
      rw [tell_eq hfd] at hle
      exact Int.ofNat_le.mp hle
    · rw [Bool.and_eq_true, beq_iff_eq, bne_iff_ne, slice_length] at hnothing
      unfold RegularFile.size
      omega
  rw [tell_eq rfl]
  omega

theorem apply_eofAtEnd {call : FdCall} (hreads : call.Reads) (hfile : self.OnFile f)
    (hend : EofAtEnd f self) : EofAtEnd f (call.apply self) := by
  rcases hreads.cases hfile with ⟨offset, whence, hseek, _⟩ | ⟨_, ⟨len, hread⟩ | hsame | hlength⟩
  · rw [hseek]
    exact seek_eofAtEnd hfile offset whence
  · rw [hread]
    exact readRaw_eofAtEnd hfile hend len
  · rwa [hsame]
  · rw [hlength]
    exact hend

theorem isEOF_of_lands (hfile : self.OnFile f) {call : FdCall} (hlands : call.lands self = true)
    (hat : (call.apply self).tell = f.size) : (call.apply self).isEOF = true := by
  have hreads := FdCall.reads_of_lands hlands
  rcases hreads.cases hfile with ⟨offset, whence, hseek, hne⟩ | ⟨hnot, _⟩
  · obtain ⟨_, hflag, htell⟩ := seek_lands hfile offset whence
    rw [hseek, htell (hne hlands)] at hat
    rw [hseek]
    exact hflag.mpr hat
  · rw [hnot] at hlands
    cases hlands

theorem isEOF_of_nothing {len : Nat} (hpos : 0 < len) (h : (self.readRaw len).1 = some []) :
    (self.readRaw len).2.isEOF = true := by
  have hne : (len != 0) = true := bne_iff_ne.mpr (Nat.ne_of_gt hpos)
  unfold readRaw at h ⊢
  cases hfd : self.fd with
  | none =>
      rw [hfd] at h
      cases h
  | some g =>
      rw [hfd] at h
      have hnil := Option.some.inj h
      simp only [isEOF, hnil, hne, List.length_nil, beq_self_eq_true, Bool.and_self, Bool.or_true]

theorem isEOF_reads (h : self.isEOF = true) (lens : List Nat) :
    (lens.foldl (fun fd len => (fd.readRaw len).2) self).isEOF = true := by
  induction lens generalizing self with
  | nil => exact h
  | cons len lens ih =>
      apply ih
      change (self.readRaw len).2.eof = true
      change self.eof = true at h
      unfold readRaw
      split
      · exact h
      · simp only [h, Bool.true_or]

theorem eofAtEnd_run (h : Reaches FdCall.step (fun _ call => call.Reads) self later)
    (hfile : self.OnFile f) (hend : EofAtEnd f self) : later.OnFile f ∧ EofAtEnd f later := by
  apply h.invariant (I := fun fd => fd.OnFile f ∧ EofAtEnd f fd) ⟨hfile, hend⟩
  intro fd call next hfd hreads htaken
  cases htaken
  exact ⟨hreads.onFile hfd.1, apply_eofAtEnd hreads hfd.1 hfd.2⟩

/-- In every run on an unchanging file the flag is up only where nothing is left
to read. Every seek that lands on the end and every read that finds nothing
raise it, and reads leave it up. -/
theorem isEOF_run (hfd : self.fd = some ⟨f, 0⟩) (hlen : self.LengthFresh f)
    (heof : self.isEOF = false)
    (h : Reaches FdCall.step (fun _ call => call.Reads) self later) :
    (later.isEOF = true →
        (f.size : Int) ≤ later.tell ∧ ∀ len, 0 < len → (later.readRaw len).1 = some []) ∧
      (∀ call : FdCall, call.lands later = true → (call.apply later).tell = f.size →
        (call.apply later).isEOF = true) ∧
      (∀ len, 0 < len → (later.readRaw len).1 = some [] →
        (later.readRaw len).2.isEOF = true) ∧
      (later.isEOF = true → ∀ lens : List Nat,
        (lens.foldl (fun fd len => (fd.readRaw len).2) later).isEOF = true) := by
  have hfirst : EofAtEnd f self := by
    intro hup
    rw [isEOF, hup] at heof
    cases heof
  obtain ⟨hfile, hend⟩ := eofAtEnd_run h ⟨⟨0, hfd⟩, hlen⟩ hfirst
  refine ⟨fun hup => ⟨hend hup, fun len hpos => ?_⟩, fun call => isEOF_of_lands hfile,
    fun len => isEOF_of_nothing, isEOF_reads⟩
  obtain ⟨pos, hat⟩ := hfile.1
  have hle := hend hup
  rw [tell_eq hat] at hle
  exact (readRaw_nil_iff hat hpos).mpr (Int.ofNat_le.mp hle)

end FdT

def threeBytes : RegularFile where
  content := [1, 2, 3]
  size_lt := by decide

def threeBytesOpened : Fd := { fd := some ⟨threeBytes, 0⟩ }

theorem isEOF_run_sample :
    let later := ((threeBytesOpened.readRaw 5).2.seek (-9) .end).2
    (later.isEOF = true →
        (threeBytes.size : Int) ≤ later.tell ∧ ∀ len, 0 < len → (later.readRaw len).1 = some []) ∧
      (∀ call : FdCall, call.lands later = true → (call.apply later).tell = threeBytes.size →
        (call.apply later).isEOF = true) ∧
      (∀ len, 0 < len → (later.readRaw len).1 = some [] →
        (later.readRaw len).2.isEOF = true) ∧
      (later.isEOF = true → ∀ lens : List Nat,
        (lens.foldl (fun fd len => (fd.readRaw len).2) later).isEOF = true) := by
  have hread : Reaches FdCall.step (fun _ call => call.Reads) threeBytesOpened
      (threeBytesOpened.readRaw 5).2 := .next (a := .read 5) .start trivial rfl
  exact FdT.isEOF_run rfl (.inl rfl) rfl (.next (a := .seek (-9) .end) hread trivial rfl)

/-! ## The cached length -/

namespace FdCall

/-- The call does not change the size of the file. A `write` of nothing, one
that no `off_t` could follow and a `resize` that is refused do not. -/
def KeepsSize (f : OpenFile) : FdCall → Prop
  | .write value (.accepted count) =>
      value.take count = [] ∨ f.pos + (value.take count).length ≤ f.file.size ∨
        offLimit ≤ f.pos + (value.take count).length
  | .resize newSize granted =>
      newSize = f.file.size ∨ ¬ (granted = true ∧ 0 ≤ newSize ∧ newSize < offLimit)
  | _ => True

def Safe (self : Fd) (call : FdCall) : Prop :=
  self.length = -1 ∨ ∀ f, self.fd = some f → call.KeepsSize f

theorem write_size_iff (f : OpenFile) (value : Bytes) (outcome : WriteOutcome) :
    (fdwrite f value outcome).2.file.size = f.file.size ↔
      (FdCall.write value outcome).KeepsSize f := by
  cases outcome with
  | failed => exact iff_of_true rfl trivial
  | accepted count =>
      have hsize := f.file.size_lt
      simp only [KeepsSize, fdwrite]
      by_cases hdata : value.take count = []
      · simp [overwrite, hdata, hsize, RegularFile.size]
      · have hpos : 0 < (value.take count).length := List.length_pos_iff.mpr hdata
        have hlen := overwrite_length_of_ne f.file.content f.pos hdata
        simp only [hdata, false_or]
        split
        · rename_i hroom
          simp only [RegularFile.size, hlen] at hroom ⊢
          omega
        · rename_i hroom
          rw [hlen] at hroom
          exact iff_of_true rfl (.inr (by omega))

theorem resize_size_iff (f : OpenFile) (newSize : Int) (granted : Bool) :
    (fdtruncate f newSize granted).2.file.size = f.file.size ↔
      (FdCall.resize newSize granted).KeepsSize f := by
  simp only [KeepsSize]
  rcases fdtruncate_cases f newSize granted with ⟨hgranted, n, hn, hsize, hlt⟩ | ⟨hrefused, hsame⟩
  · rw [hsize, hn]
    have hnonneg := Int.natCast_nonneg n
    constructor
    · intro heq
      exact .inl (by rw [heq])
    · rintro (heq | hrefused)
      · exact Int.ofNat_inj.mp heq
      · exact absurd ⟨hgranted, hnonneg, hlt⟩ hrefused
  · rw [hsame]
    exact iff_of_true rfl (.inr hrefused)

/-- One call: the file is still open, and the cached length is right for it
exactly if the call was safe. -/
theorem apply_fresh_iff {self : Fd} {f : OpenFile} (call : FdCall) (hfd : self.fd = some f)
    (hfresh : self.LengthFresh f.file) :
    ∃ g, (call.apply self).fd = some g ∧
      ((call.apply self).LengthFresh g.file ↔ call.Safe self) := by
  have hreads : call.Reads → call.Safe self → ∃ g, (call.apply self).fd = some g ∧
      ((call.apply self).LengthFresh g.file ↔ call.Safe self) := by
    intro hreads hsafe
    obtain ⟨⟨pos, hfd'⟩, hfresh'⟩ := hreads.onFile ⟨⟨f.pos, hfd⟩, hfresh⟩
    exact ⟨_, hfd', iff_of_true hfresh' hsafe⟩
  have hsized : ∀ g : RegularFile, (g.size = f.file.size ↔ call.KeepsSize f) →
      (self.LengthFresh g ↔ call.Safe self) := by
    intro g hkeeps
    have hsafe : call.Safe self ↔ self.length = -1 ∨ call.KeepsSize f := by
      simp only [Safe, hfd, Option.some_inj, forall_eq']
    rw [hsafe, ← hkeeps]
    unfold FdT.LengthFresh at hfresh ⊢
    omega
  cases call with
  | write value outcome =>
      have happly : (FdCall.write value outcome).apply self =
          { self with fd := some (fdwrite f value outcome).2 } := by
        simp only [apply, FdT.write, hfd]
      rw [happly]
      exact ⟨_, rfl, hsized _ (write_size_iff f value outcome)⟩
  | resize newSize granted =>
      have happly : (FdCall.resize newSize granted).apply self =
          { self with fd := some (fdtruncate f newSize granted).2 } := by
        simp only [apply, FdT.resize, hfd]
      rw [happly]
      exact ⟨_, rfl, hsized _ (resize_size_iff f newSize granted)⟩
  | length => exact hreads trivial (.inr fun _ _ => trivial)
  | seek offset whence => exact hreads trivial (.inr fun _ _ => trivial)
  | seekRel offset => exact hreads trivial (.inr fun _ _ => trivial)
  | head => exact hreads trivial (.inr fun _ _ => trivial)
  | tail => exact hreads trivial (.inr fun _ _ => trivial)
  | read bufferLen => exact hreads trivial (.inr fun _ _ => trivial)

end FdCall

namespace FdT

/-- What the length seen through the wrapper is for: `length()` is the size of
the file, and a successful `tail()` ends behind its last byte, so that no write
there overwrites anything. -/
structure Current (fd : Fd) (f : RegularFile) : Prop where
  length : fd.lengthOf.1 = f.size
  tail : fd.tail.1 = true → fd.tail.2.tell = f.size
  appends : fd.tail.1 = true → ∀ value outcome,
    f.content <+: (fd.tail.2.write value outcome).2.content

variable {self later : Fd} {f : RegularFile} {pos : Nat}

theorem write_at_end (hfd : self.fd = some ⟨f, f.size⟩) (value : Bytes) (outcome : WriteOutcome) :
    f.content <+: (self.write value outcome).2.content := by
  simp only [write, hfd, content]
  cases outcome with
  | failed => exact List.prefix_refl _
  | accepted count =>
      simp only [fdwrite]
      split
      · have hend : f.size ≤ f.content.length := Nat.le_refl _
        simp only [overwrite_of_le hend]
        rw [RegularFile.size, List.take_length]
        exact List.prefix_append _ _
      · exact List.prefix_refl _

theorem current_iff (hfd : self.fd = some ⟨f, pos⟩) : Current self f ↔ self.LengthFresh f := by
  constructor
  · intro h
    have hlength := h.length
    unfold lengthOf at hlength
    split at hlength
    · exact .inr hlength
    · rename_i hnone
      exact .inl (Decidable.not_not.mp hnone)
  · intro hfresh
    have htail := tail_eq ⟨⟨pos, hfd⟩, hfresh⟩
    refine ⟨by rw [lengthOf_eq hfd hfresh], fun _ => ?_, fun _ => ?_⟩
    · rw [htail]
      exact tell_eq (placedAt_fd self f f.size)
    · rw [htail]
      exact write_at_end (placedAt_fd self f f.size)

/-- In every run of safe calls the length seen through the wrapper is that of
the file, and the first call that is not safe makes it a different one. -/
theorem current_run (hfd : self.fd = some ⟨f, pos⟩) (hlen : self.LengthFresh f)
    (h : Reaches FdCall.step (fun fd call => call.Safe fd) self later) :
    ∃ g, later.fd = some g ∧ Current later g.file ∧
      ∀ call : FdCall, ¬ call.Safe later →
        ∃ g', (call.apply later).fd = some g' ∧ ¬ Current (call.apply later) g'.file := by
  have hlater : ∃ g, later.fd = some g ∧ later.LengthFresh g.file := by
    apply h.invariant (I := fun fd => ∃ g, fd.fd = some g ∧ fd.LengthFresh g.file)
    · exact ⟨_, hfd, hlen⟩
    · intro fd call next hfresh hsafe htaken
      cases htaken
      obtain ⟨g, hg, hfresh⟩ := hfresh
      obtain ⟨g', hg', hiff⟩ := call.apply_fresh_iff hg hfresh
      exact ⟨g', hg', hiff.mpr hsafe⟩
  obtain ⟨g, hg, hfresh⟩ := hlater
  refine ⟨g, hg, (current_iff hg).mpr hfresh, fun call hunsafe => ?_⟩
  obtain ⟨g', hg', hiff⟩ := call.apply_fresh_iff hg hfresh
  exact ⟨g', hg', fun hcurrent => hunsafe (hiff.mp ((current_iff hg').mp hcurrent))⟩

theorem current_run_sample :
    let later := ((threeBytesOpened.readRaw 2).2.write [4, 5] (.accepted 2)).2.lengthOf.2
    ∃ g, later.fd = some g ∧ Current later g.file ∧
      ∀ call : FdCall, ¬ call.Safe later →
        ∃ g', (call.apply later).fd = some g' ∧ ¬ Current (call.apply later) g'.file := by
  have hread : Reaches FdCall.step (fun fd call => call.Safe fd) threeBytesOpened
      (threeBytesOpened.readRaw 2).2 := .next (a := .read 2) .start (.inl rfl) rfl
  have hwrite : Reaches FdCall.step (fun fd call => call.Safe fd) threeBytesOpened
      ((threeBytesOpened.readRaw 2).2.write [4, 5] (.accepted 2)).2 :=
    .next (a := .write [4, 5] (.accepted 2)) hread (.inl rfl) rfl
  exact current_run rfl (.inl rfl) (.next (a := .length) hwrite (.inl rfl) rfl)

/-- The length of an empty file is asked for, and then three bytes are written
to it: `length()` still says 0, `tail()` goes to the first byte, and a write
there overwrites it. -/
theorem current_run_fails :
    let opened : Fd := { fd := some ⟨RegularFile.empty, 0⟩ }
    let written := (opened.lengthOf.2.write [1, 2, 3] (.accepted 3)).2
    Reachable FdCall.step opened written ∧ written.content = [1, 2, 3] ∧
      written.lengthOf.1 = 0 ∧ written.tail.1 = true ∧
      (written.tail.2.write [9] (.accepted 1)).2.content = [9, 2, 3] ∧
      ∀ g, written.fd = some g → ¬ Current written g.file := by
  intro opened written
  have hlength : Reachable FdCall.step opened opened.lengthOf.2 :=
    Reaches.next (a := .length) .start trivial rfl
  refine ⟨Reaches.next (a := .write [1, 2, 3] (.accepted 3)) hlength trivial rfl, by decide,
    by decide, by decide, by decide, ?_⟩
  intro g hg hcurrent
  have hsize : written.lengthOf.1 = 3 := by
    rw [hcurrent.length]
    cases hg
    decide
  revert hsize
  decide

end FdT

end LibNokogiri.Internal
