import LibNokogiri.Foundation.Tape
import LibNokogiri.Internal.FdRuns
import LibNokogiri.Internal.Fields

/-! # One file behind several wrappers

A file can be open more than once, and `dup` gives a second wrapper for one
open file description, whose position the two then share. Each wrapper has an
end-of-file flag and a cached length of its own. What is read, written and
sought through all of them is nevertheless what one tape with some positions
on it answers.
-/

namespace LibNokogiri.Internal

open ByteCodec Framing Run Tape

/-! ## Files as tapes -/

namespace RegularFile

/-- The bytes of the file by their positions; behind its end they are zero. -/
def tape (f : RegularFile) : Tape UInt8 := Tape.ofList f.content

theorem tape_window (f : RegularFile) (pos count : Nat) :
    f.tape.window pos count = slice f.content pos count := window_ofList f.content pos count

theorem tape_injective {f g : RegularFile} (h : f.tape = g.tape) : f.content = g.content :=
  ofList_injective h

theorem tape_resized (f : RegularFile) {size : Nat} (h : size < offLimit) :
    (f.resized size h).tape = f.tape.edited (.resize size) := by
  apply Tape.ext
  · simp only [tape, resized, ofList, edited, Edit.sizeAfter, List.length_append, List.length_take,
      List.length_replicate]
    omega
  · funext i
    simp only [tape, resized, ofList, edited, Edit.writes, List.getElem?_append,
      List.length_take, List.getElem?_take, List.getElem?_replicate]
    by_cases hin : i < size
    · rw [if_neg (Nat.not_le.mpr hin), Option.getD_none]
      by_cases hlt : i < f.content.length
      · rw [if_pos (by omega), if_pos hin]
      · rw [if_neg (by omega), List.getElem?_eq_none (Nat.not_lt.mp hlt)]
        split <;> rfl
    · rw [if_pos (Nat.not_lt.mp hin), Option.getD_some, if_neg (by omega), if_neg (by omega)]
      rfl

end RegularFile

theorem ofList_overwrite (content : Bytes) (pos : Nat) (data : Bytes) :
    ofList (overwrite content pos data) = (ofList content).edited (.put pos data) := by
  by_cases hdata : data = []
  · apply Tape.ext
    · simp [hdata, overwrite, ofList, edited, Edit.sizeAfter]
    · funext i
      simp [hdata, overwrite, ofList, edited, Edit.writes]
  · have hlen := overwrite_length_of_ne content pos hdata
    have hne : data.length ≠ 0 := fun h => hdata (List.length_eq_zero_iff.mp h)
    apply Tape.ext
    · simp only [ofList, edited, Edit.sizeAfter, if_neg hne, hlen]
    · funext i
      simp only [ofList, edited, Edit.writes, overwrite, if_neg hdata, List.getElem?_append,
        List.length_append, List.length_take, List.length_replicate, List.getElem?_take,
        List.getElem?_replicate, List.getElem?_drop]
      by_cases hfront : i < pos
      · rw [if_neg (Nat.not_le.mpr hfront), Option.getD_none, if_pos (by omega), if_pos (by omega)]
        by_cases hin : i < content.length
        · rw [if_pos (by omega), if_pos hfront]
        · rw [if_neg (by omega), if_pos (by omega), List.getElem?_eq_none (Nat.not_lt.mp hin)]
          rfl
      · have hstart : min pos content.length + (pos - min pos content.length) = pos := by omega
        rw [if_pos (Nat.not_lt.mp hfront), hstart]
        by_cases hin : i < pos + data.length
        · have hdata : i - pos < data.length := by omega
          rw [if_pos hin, if_neg hfront, List.getElem?_eq_getElem hdata]
          rfl
        · have hbehind : data.length ≤ i - pos := by omega
          rw [if_neg hin, List.getElem?_eq_none hbehind, Option.getD_none]
          congr 2
          omega

/-- A write that is accepted is one edit, unless it would outgrow `off_t`. -/
theorem fdwrite_accepted (f : OpenFile) (buffer : Bytes) (count : Nat) :
    let data := buffer.take count
    let edit := Edit.put f.pos data
    (edit.sizeAfter f.file.tape.size < offLimit ∧ ∃ g : RegularFile,
        fdwrite f buffer (.accepted count) = ((data.length : Int), ⟨g, f.pos + data.length⟩) ∧
          g.tape = f.file.tape.edited edit) ∨
      (¬ edit.sizeAfter f.file.tape.size < offLimit ∧
        fdwrite f buffer (.accepted count) = (-1, f)) := by
  intro data edit
  have htape : ofList (overwrite f.file.content f.pos data) = f.file.tape.edited edit :=
    ofList_overwrite _ _ _
  have hsize : (overwrite f.file.content f.pos data).length = edit.sizeAfter f.file.tape.size :=
    congrArg Tape.size htape
  rw [← hsize]
  by_cases hroom : (overwrite f.file.content f.pos data).length < offLimit
  · exact .inl ⟨hroom, _, dif_pos hroom, htape⟩
  · exact .inr ⟨hroom, dif_neg hroom⟩

theorem fdtruncate_granted (f : OpenFile) (size : Int) (granted : Bool) :
    ((granted = true ∧ 0 ≤ size ∧ size < offLimit) ∧ ∃ g : RegularFile,
        fdtruncate f size granted = (0, ⟨g, f.pos⟩) ∧
          g.tape = f.file.tape.edited (.resize size.toNat)) ∨
      (¬ (granted = true ∧ 0 ≤ size ∧ size < offLimit) ∧
        fdtruncate f size granted = (-1, f)) := by
  by_cases hrange : granted = true ∧ 0 ≤ size ∧ size < offLimit
  · exact .inl ⟨hrange, _, dif_pos hrange, f.file.tape_resized (by omega)⟩
  · exact .inr ⟨hrange, dif_neg hrange⟩

/-! ## Calls through one wrapper -/

inductive FileReply
  | done
  | offset (value : Int)
  | flag (value : Bool)
  | bytes (value : Option Bytes)
deriving DecidableEq

namespace FdCall

def reply (self : Fd) : FdCall → FileReply
  | .length => .offset self.lengthOf.1
  | .seek offset whence => .offset (self.seek offset whence).1
  | .seekRel offset => .flag (self.seekRel offset).1
  | .head => .flag self.head.1
  | .tail => .flag self.tail.1
  | .read bufferLen => .bytes (self.readRaw bufferLen).1
  | .write value outcome => .flag (self.write value outcome).1
  | .resize newSize granted => .flag (self.resize newSize granted).1

/-- The call does not go by the cached length. -/
def Uncached : FdCall → Prop
  | .length | .tail => False
  | _ => True

structure Effect where
  reply : FileReply
  pos : Nat
  edit : Option (Edit UInt8) := none

def landing (size pos : Nat) (offset : Int) (whence : Whence) : Option Nat :=
  let base : Int :=
    match whence with
    | .set => 0
    | .cur => pos
    | .end => size
  let target := base + offset
  if 0 ≤ target ∧ target < offLimit then some target.toNat else none

/-- The call at a position of a tape. -/
def effect (t : Tape UInt8) (pos : Nat) : FdCall → Effect
  | .length => ⟨.offset t.size, pos, none⟩
  | .seek offset whence =>
      match landing t.size pos offset whence with
      | some target => ⟨.offset target, target, none⟩
      | none => ⟨.offset (-1), pos, none⟩
  | .seekRel offset =>
      match landing t.size pos offset .cur with
      | some target => ⟨.flag true, target, none⟩
      | none => ⟨.flag false, pos, none⟩
  | .head => ⟨.flag true, 0, none⟩
  | .tail => ⟨.flag true, t.size, none⟩
  | .read bufferLen =>
      let bytes := t.window pos bufferLen
      ⟨.bytes (some bytes), pos + bytes.length, none⟩
  | .write _ .failed => ⟨.flag false, pos, none⟩
  | .write value (.accepted count) =>
      let data := value.take count
      let edit := Edit.put pos data
      if edit.sizeAfter t.size < offLimit then
        ⟨.flag (data.length == value.length), pos + data.length, some edit⟩
      else ⟨.flag false, pos, none⟩
  | .resize newSize granted =>
      if granted = true ∧ 0 ≤ newSize ∧ newSize < offLimit then
        ⟨.flag true, pos, some (.resize newSize.toNat)⟩
      else ⟨.flag false, pos, none⟩

/-- What every call returns when the descriptor is -1. -/
def refusal : FdCall → FileReply
  | .length | .seek _ _ => .offset (-1)
  | .read _ => .bytes none
  | _ => .flag false

def Effect.tape (e : Effect) (t : Tape UInt8) : Tape UInt8 := e.edit.elim t t.edited

end FdCall

section Effects

variable {self : Fd} {f : RegularFile} {pos : Nat}

theorem fdseek_landing (f : OpenFile) (offset : Int) (whence : Whence) :
    fdseek f offset whence =
      match FdCall.landing f.file.size f.pos offset whence with
      | some target => ((target : Int), { f with pos := target })
      | none => (-1, f) := by
  have hcases : ∀ target : Int,
      (if 0 ≤ target ∧ target < offLimit then (target, { f with pos := target.toNat })
        else (-1, f)) =
        match (if 0 ≤ target ∧ target < offLimit then some target.toNat else none) with
        | some target => ((target : Int), { f with pos := target })
        | none => (-1, f) := by
    intro target
    by_cases hrange : 0 ≤ target ∧ target < offLimit
    · rw [if_pos hrange, if_pos hrange]
      simp only [Int.toNat_of_nonneg hrange.1]
    · rw [if_neg hrange, if_neg hrange]
  exact hcases _

theorem seek_effect (hfd : self.fd = some ⟨f, pos⟩) (offset : Int) (whence : Whence) :
    FileReply.offset (self.seek offset whence).1 =
        (FdCall.effect f.tape pos (.seek offset whence)).reply ∧
      (self.seek offset whence).2.fd =
        some ⟨f, (FdCall.effect f.tape pos (.seek offset whence)).pos⟩ := by
  have hseek := FdT.seek_fd hfd offset whence
  rw [hseek.1, hseek.2, fdseek_landing]
  unfold FdCall.effect
  cases hland : FdCall.landing f.size pos offset whence with
  | none =>
      have hland' : FdCall.landing f.tape.size pos offset whence = none := hland
      simp only [hland']
      exact ⟨trivial, trivial⟩
  | some target =>
      have hland' : FdCall.landing f.tape.size pos offset whence = some target := hland
      simp only [hland']
      exact ⟨trivial, trivial⟩

theorem seekRel_effect (hfd : self.fd = some ⟨f, pos⟩) (offset : Int) :
    FileReply.flag (self.seekRel offset).1 =
        (FdCall.effect f.tape pos (.seekRel offset)).reply ∧
      (self.seekRel offset).2.fd =
        some ⟨f, (FdCall.effect f.tape pos (.seekRel offset)).pos⟩ := by
  have hseek := FdT.seek_fd hfd offset .cur
  rw [fdseek_landing] at hseek
  have hnonneg : (pos : Int) ≠ -1 := by omega
  have hland : FdCall.landing f.size pos offset .cur =
      if 0 ≤ (pos : Int) + offset ∧ (pos : Int) + offset < offLimit then
        some ((pos : Int) + offset).toNat else none := rfl
  have heffect : FdCall.effect f.tape pos (.seekRel offset) =
      match FdCall.landing f.size pos offset .cur with
      | some target => ⟨.flag true, target, none⟩
      | none => ⟨.flag false, pos, none⟩ := rfl
  rw [heffect]
  simp only [FdT.seekRel, FdT.tell_eq hfd, hnonneg, false_or]
  by_cases hrange : 0 ≤ (pos : Int) + offset ∧ (pos : Int) + offset < offLimit
  · obtain ⟨target, htarget⟩ := Int.eq_ofNat_of_zero_le hrange.1
    have hlt : target < offLimit := by omega
    rw [if_pos hrange, htarget, Int.toNat_natCast] at hland
    have hnext : ¬ (target : Int) < 0 := by omega
    simp only [hland] at hseek ⊢
    rw [htarget, ptrdiffT_of_lt hlt, if_neg hnext, hseek.1, hseek.2]
    exact ⟨by rw [beq_self_eq_true], rfl⟩
  · rw [if_neg hrange] at hland
    simp only [hland] at hseek ⊢
    split
    · exact ⟨rfl, hfd⟩
    · rename_i hle
      have hother : ((-1 : Int) == ptrdiffT ((pos : Int) + offset)) = false := by
        rw [beq_eq_false_iff_ne]
        omega
      rw [hseek.1, hseek.2, hother]
      exact ⟨rfl, rfl⟩

theorem write_effect (hfd : self.fd = some ⟨f, pos⟩) (value : Bytes) (outcome : WriteOutcome) :
    let e := FdCall.effect f.tape pos (.write value outcome)
    FileReply.flag (self.write value outcome).1 = e.reply ∧
      ∃ g : RegularFile, (self.write value outcome).2.fd = some ⟨g, e.pos⟩ ∧
        g.tape = e.tape f.tape := by
  intro e
  have hwrite : self.write value outcome = ((fdwrite ⟨f, pos⟩ value outcome).1 == value.length,
      { self with fd := some (fdwrite ⟨f, pos⟩ value outcome).2 }) := by
    simp only [FdT.write, hfd]
  have hfailed : ((-1 : Int) == (value.length : Int)) = false := by
    rw [beq_eq_false_iff_ne]
    omega
  rw [hwrite]
  cases outcome with
  | failed => exact ⟨congrArg FileReply.flag hfailed, f, rfl, rfl⟩
  | accepted count =>
      have heffect : e = if (Edit.put pos (value.take count)).sizeAfter f.tape.size < offLimit then
          ⟨.flag ((value.take count).length == value.length), pos + (value.take count).length,
            some (.put pos (value.take count))⟩
        else ⟨.flag false, pos, none⟩ := rfl
      rw [heffect]
      rcases fdwrite_accepted ⟨f, pos⟩ value count with ⟨hroom, g, hstored, htape⟩ | ⟨hfull, hsame⟩
      · rw [if_pos hroom, hstored]
        refine ⟨congrArg FileReply.flag ?_, g, rfl, htape⟩
        rw [Bool.eq_iff_iff, beq_iff_eq, beq_iff_eq, Int.natCast_inj]
      · rw [if_neg hfull, hsame]
        exact ⟨congrArg FileReply.flag hfailed, f, rfl, rfl⟩

theorem resize_effect (hfd : self.fd = some ⟨f, pos⟩) (newSize : Int) (granted : Bool) :
    let e := FdCall.effect f.tape pos (.resize newSize granted)
    FileReply.flag (self.resize newSize granted).1 = e.reply ∧
      ∃ g : RegularFile, (self.resize newSize granted).2.fd = some ⟨g, e.pos⟩ ∧
        g.tape = e.tape f.tape := by
  intro e
  have heffect : e = if granted = true ∧ 0 ≤ newSize ∧ newSize < offLimit then
      ⟨.flag true, pos, some (.resize newSize.toNat)⟩ else ⟨.flag false, pos, none⟩ := rfl
  have hresize : self.resize newSize granted = ((fdtruncate ⟨f, pos⟩ newSize granted).1 == 0,
      { self with fd := some (fdtruncate ⟨f, pos⟩ newSize granted).2 }) := by
    simp only [FdT.resize, hfd]
  rw [hresize, heffect]
  rcases fdtruncate_granted ⟨f, pos⟩ newSize granted with ⟨hrange, g, hcut, htape⟩ | ⟨hrange, hsame⟩
  · rw [if_pos hrange, hcut]
    exact ⟨rfl, g, rfl, htape⟩
  · rw [if_neg hrange, hsame]
    exact ⟨rfl, f, rfl, rfl⟩

theorem read_effect (hfd : self.fd = some ⟨f, pos⟩) (bufferLen : Nat) :
    let e := FdCall.effect f.tape pos (.read bufferLen)
    FileReply.bytes (self.readRaw bufferLen).1 = e.reply ∧
      (self.readRaw bufferLen).2.fd = some ⟨f, e.pos⟩ := by
  intro e
  have heffect : e = ⟨.bytes (some (f.tape.window pos bufferLen)),
      pos + (f.tape.window pos bufferLen).length, none⟩ := rfl
  rw [heffect, f.tape_window, FdT.readRaw_eq hfd]
  exact ⟨rfl, rfl⟩

namespace FdCall

/-- A call that does not go by the cached length returns, and leaves in the
file and at the position, what its effect says. -/
theorem Uncached.spec {call : FdCall} (h : call.Uncached) (hfd : self.fd = some ⟨f, pos⟩) :
    call.reply self = (call.effect f.tape pos).reply ∧
      ∃ g : RegularFile, (call.apply self).fd = some ⟨g, (call.effect f.tape pos).pos⟩ ∧
        g.tape = (call.effect f.tape pos).tape f.tape := by
  cases call with
  | length => exact h.elim
  | tail => exact h.elim
  | seek offset whence =>
      obtain ⟨hreply, hpos⟩ := seek_effect hfd offset whence
      refine ⟨hreply, f, hpos, ?_⟩
      unfold effect
      dsimp only
      split <;> rfl
  | seekRel offset =>
      obtain ⟨hreply, hpos⟩ := seekRel_effect hfd offset
      refine ⟨hreply, f, hpos, ?_⟩
      unfold effect
      dsimp only
      split <;> rfl
  | head =>
      have hseek := FdT.seek_set_fd hfd (show 0 < offLimit by decide)
      refine ⟨?_, f, hseek.2, rfl⟩
      have hzero : (self.seek 0 .set).1 = 0 := hseek.1
      show FileReply.flag ((self.seek 0 .set).1 == 0) = .flag true
      rw [hzero]
      rfl
  | read bufferLen =>
      obtain ⟨hreply, hpos⟩ := read_effect hfd bufferLen
      exact ⟨hreply, f, hpos, rfl⟩
  | write value outcome => exact write_effect hfd value outcome
  | resize newSize granted => exact resize_effect hfd newSize granted

theorem apply_tape (hfd : self.fd = some ⟨f, pos⟩) (call : FdCall) :
    ∃ (g : RegularFile) (pos' : Nat), (call.apply self).fd = some ⟨g, pos'⟩ ∧
      g.tape = (call.effect f.tape pos).tape f.tape := by
  have huncached : ∀ call : FdCall, call.Uncached → ∃ (g : RegularFile) (pos' : Nat),
      (call.apply self).fd = some ⟨g, pos'⟩ ∧ g.tape = (call.effect f.tape pos).tape f.tape := by
    intro call h
    obtain ⟨_, g, hg, htape⟩ := h.spec hfd
    exact ⟨g, _, hg, htape⟩
  cases call with
  | length => exact ⟨f, pos, (FdT.lengthOf_fd self).trans hfd, rfl⟩
  | tail =>
      show ∃ g pos', (self.tail).2.fd = some ⟨g, pos'⟩ ∧ g.tape = f.tape
      have hlength := (FdT.lengthOf_fd self).trans hfd
      unfold FdT.tail
      dsimp only
      split
      · exact ⟨f, pos, hlength, rfl⟩
      · exact ⟨f, _, (seek_effect hlength self.lengthOf.1 .set).2, rfl⟩
  | _ =>
      refine huncached _ ?_
      trivial

theorem apply_closed (hfd : self.fd = none) (call : FdCall) :
    (call.apply self).fd = none ∧ (call.Uncached → call.reply self = call.refusal) := by
  have hlength : self.lengthOf.2.fd = none := (FdT.lengthOf_fd self).trans hfd
  have hseek : ∀ {w : Fd}, w.fd = none → ∀ offset whence,
      (w.seek offset whence).1 = -1 ∧ (w.seek offset whence).2.fd = none := by
    intro w hw offset whence
    simp only [FdT.seek, hw, FdT.lengthOf_fd, and_self]
  cases call with
  | length => exact ⟨hlength, False.elim⟩
  | tail =>
      refine ⟨?_, False.elim⟩
      show self.tail.2.fd = none
      unfold FdT.tail
      dsimp only
      split
      · exact hlength
      · exact (hseek hlength _ _).2
  | seek offset whence =>
      obtain ⟨hfailed, hclosed⟩ := hseek hfd offset whence
      exact ⟨hclosed, fun _ => congrArg FileReply.offset hfailed⟩
  | head =>
      obtain ⟨hfailed, hclosed⟩ := hseek hfd 0 .set
      refine ⟨hclosed, fun _ => ?_⟩
      show FileReply.flag ((self.seek 0 .set).1 == 0) = .flag false
      rw [hfailed]
      rfl
  | seekRel offset => simp [apply, reply, refusal, FdT.seekRel, FdT.tell, hfd]
  | read bufferLen => simp [apply, reply, refusal, FdT.readRaw, hfd]
  | write value outcome => simp [apply, reply, refusal, FdT.write, hfd]
  | resize newSize granted => simp [apply, reply, refusal, FdT.resize, hfd]

end FdCall

end Effects

/-! ## The wrappers of one file -/

instance : Descriptor (Option Nat) := ⟨none⟩

/-- A file, the positions of its open file descriptions, and the wrappers, each
with the number of its description in place of a descriptor; `none` is -1. -/
structure SharedFile where
  file : RegularFile
  positions : List Nat := []
  wrappers : List (FdT (Option Nat)) := []

inductive FileRequest
  | openFile (filename : String) (temp granted : Bool)
  | dup (i : Nat) (granted : Bool)
  | moveConstruct (i : Nat)
  | moveAssign (i j : Nat)
  | swap (i j : Nat)
  | destroy (i : Nat)
  | tell (i : Nat)
  | via (i : Nat) (call : FdCall)

def FileRequest.Uncached : FileRequest → Prop
  | .via _ call => call.Uncached
  | _ => True

namespace SharedFile

def attach (self : SharedFile) (w : FdT (Option Nat)) : Fd where
  fd := w.fd.bind fun d => self.positions[d]?.map fun pos => ⟨self.file, pos⟩
  eof := w.eof
  length := w.length
  temp := w.temp
  filename := w.filename

def detach (w : FdT (Option Nat)) (fd : Fd) : FdT (Option Nat) where
  fd := w.fd
  eof := fd.eof
  length := fd.length
  temp := fd.temp
  filename := fd.filename

def settle (self : SharedFile) (i : Nat) (w : FdT (Option Nat)) (fd : Fd) : SharedFile :=
  let wrappers := self.wrappers.set i (detach w fd)
  match w.fd, fd.fd with
  | some d, some f => { file := f.file, positions := self.positions.set d f.pos, wrappers }
  | _, _ => { self with wrappers }

def add (self : SharedFile) (w : FdT (Option Nat)) : SharedFile :=
  { self with wrappers := self.wrappers ++ [w] }

def exchange (self : SharedFile) (i j : Nat) : Option SharedFile := do
  let a ← self.wrappers[i]?
  let b ← self.wrappers[j]?
  some { self with wrappers := (self.wrappers.set i (FdT.swap a b).1).set j (FdT.swap a b).2 }

/-- The reply to a request and the state afterwards; none where a wrapper does
not exist. -/
def serve (self : SharedFile) : FileRequest → Option (FileReply × SharedFile)
  | .openFile filename temp granted =>
      if granted then
        some (.done, { self with positions := self.positions ++ [0] }.add
          { fd := some self.positions.length, temp, filename })
      else some (.done, self.add { fd := none, temp, filename })
  | .dup i granted => do
      let w ← self.wrappers[i]?
      -- a second descriptor for the same description
      some (.done, self.add { fd := if granted then w.fd else none })
  | .moveConstruct i => do
      let w ← self.wrappers[i]?
      some (.done, { self with
        wrappers := self.wrappers.set i (FdT.moveConstruct w).2 }.add (FdT.moveConstruct w).1)
  | .moveAssign i j | .swap i j => (self.exchange i j).map fun next => (.done, next)
  | .destroy i => do
      let _ ← self.wrappers[i]?
      some (.done, { self with wrappers := self.wrappers.eraseIdx i })
  | .tell i => do
      let w ← self.wrappers[i]?
      some (.offset (self.attach w).tell, self)
  | .via i call => do
      let w ← self.wrappers[i]?
      some (call.reply (self.attach w), self.settle i w (call.apply (self.attach w)))

def step (self : SharedFile) (request : FileRequest) : Option SharedFile :=
  (self.serve request).map Prod.snd

end SharedFile

end LibNokogiri.Internal
