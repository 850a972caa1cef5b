import LibNokogiri.Foundation.Holdings
import LibNokogiri.Internal.SharedFile

/-! # Runs on a shared file

Seen through its wrappers in any interleaving of their calls, a file is a tape:
what is read is what the last edit left, whichever wrapper made it, and the
duplicates of a descriptor share the bytes between them.
-/

namespace LibNokogiri.Internal

open ByteCodec Framing Holdings Run Tape

/-- A tape, positions on it, and for every wrapper which of them it goes by. -/
structure Store where
  tape : Tape UInt8
  positions : List Nat
  handles : List (Option Nat)

namespace Store

/-- The number of the position that a handle goes by, and what the call does there. -/
def effect (s : Store) (handle : Option Nat) (call : FdCall) : Option (Nat × FdCall.Effect) := do
  let d ← handle
  let pos ← s.positions[d]?
  some (d, call.effect s.tape pos)

def perform (s : Store) (handle : Option Nat) (call : FdCall) : FileReply × Store :=
  match s.effect handle call with
  | some (d, e) =>
      (e.reply, { s with tape := e.tape s.tape, positions := s.positions.set d e.pos })
  | none => (call.refusal, s)

def exchange (s : Store) (i j : Nat) : Option Store := do
  let a ← s.handles[i]?
  let b ← s.handles[j]?
  some { s with handles := (s.handles.set i b).set j a }

def serve (s : Store) : FileRequest → Option (FileReply × Store)
  | .openFile _ _ granted =>
      if granted then
        some (.done, { s with
          positions := s.positions ++ [0], handles := s.handles ++ [some s.positions.length] })
      else some (.done, { s with handles := s.handles ++ [none] })
  | .dup i granted =>
      s.handles[i]?.map fun h =>
        (.done, { s with handles := s.handles ++ [if granted then h else none] })
  | .moveConstruct i =>
      s.handles[i]?.map fun h => (.done, { s with handles := s.handles.set i none ++ [h] })
  | .moveAssign i j | .swap i j => (s.exchange i j).map fun next => (.done, next)
  | .destroy i => s.handles[i]?.map fun _ => (.done, { s with handles := s.handles.eraseIdx i })
  | .tell i =>
      s.handles[i]?.map fun h =>
        (.offset ((h.bind fun d => s.positions[d]?).elim (-1) fun pos => pos), s)
  | .via i call => s.handles[i]?.map fun h => s.perform h call

def edit (s : Store) : FileRequest → Option (Edit UInt8)
  | .via i call => do
      let h ← s.handles[i]?
      let r ← s.effect h call
      r.2.edit
  | _ => none

end Store

namespace SharedFile

/-- The file without the flags and the cached lengths of its wrappers. -/
def view (self : SharedFile) : Store where
  tape := self.file.tape
  positions := self.positions
  handles := self.wrappers.map FdT.fd

section Steps

variable {s s' : SharedFile} {w : FdT (Option Nat)} {i : Nat} {call : FdCall}

theorem attach_none (h : (w.fd.bind fun d => s.positions[d]?) = none) : (s.attach w).fd = none := by
  cases hfd : w.fd with
  | none => simp only [attach, hfd, Option.bind_none]
  | some d =>
      have hpos : s.positions[d]? = none := by rwa [hfd] at h
      simp only [attach, hfd, Option.bind_some, hpos, Option.map_none]

theorem attach_some {d pos : Nat} (hd : w.fd = some d) (hpos : s.positions[d]? = some pos) :
    (s.attach w).fd = some ⟨s.file, pos⟩ := by
  simp only [attach, hd, Option.bind_some, hpos, Option.map_some]

theorem attach_of_tell {pos : Nat} (h : (s.attach w).tell = pos) :
    ∃ d, w.fd = some d ∧ s.positions[d]? = some pos := by
  cases hopen : w.fd.bind fun d => s.positions[d]? with
  | none =>
      simp only [FdT.tell, attach_none hopen] at h
      omega
  | some pos' =>
      obtain ⟨d, hd, hpos⟩ := Option.bind_eq_some_iff.mp hopen
      rw [FdT.tell_eq (attach_some hd hpos), Int.natCast_inj] at h
      exact ⟨d, hd, h ▸ hpos⟩

theorem handles_detach (hw : s.wrappers[i]? = some w) (fd : Fd) :
    (s.wrappers.set i (detach w fd)).map FdT.fd = s.wrappers.map FdT.fd :=
  map_set_same hw rfl

theorem settle_view {d pos : Nat} {g : RegularFile} {fd : Fd} (hw : s.wrappers[i]? = some w)
    (hd : w.fd = some d) (hfd : fd.fd = some ⟨g, pos⟩) :
    (s.settle i w fd).view = { s.view with tape := g.tape, positions := s.positions.set d pos } := by
  simp only [settle, hd, hfd, view, handles_detach hw]

theorem settle_closed {fd : Fd} (hw : s.wrappers[i]? = some w) (hfd : fd.fd = none) :
    (s.settle i w fd).view = s.view := by
  have hsettle : s.settle i w fd = { s with wrappers := s.wrappers.set i (detach w fd) } := by
    unfold settle
    rw [hfd]
    cases w.fd <;> rfl
  simp only [hsettle, view, handles_detach hw]

theorem effect_closed (h : (w.fd.bind fun d => s.positions[d]?) = none) (call : FdCall) :
    s.view.effect w.fd call = none := by
  cases hfd : w.fd with
  | none => rfl
  | some d =>
      have hpos : s.view.positions[d]? = none := by rwa [hfd] at h
      simp only [Store.effect, Option.bind_eq_bind, Option.bind_some, hpos, Option.bind_none]

theorem effect_open {d pos : Nat} (hd : w.fd = some d) (hpos : s.positions[d]? = some pos)
    (call : FdCall) : s.view.effect w.fd call = some (d, call.effect s.file.tape pos) := by
  have hpos' : s.view.positions[d]? = some pos := hpos
  simp only [Store.effect, hd, Option.bind_eq_bind, Option.bind_some, hpos']
  rfl

theorem via_view (hw : s.wrappers[i]? = some w) (huncached : call.Uncached) :
    (call.reply (s.attach w), (s.settle i w (call.apply (s.attach w))).view) =
      s.view.perform w.fd call := by
  cases hopen : w.fd.bind fun d => s.positions[d]? with
  | none =>
      obtain ⟨hnone, hreply⟩ := FdCall.apply_closed (attach_none hopen) call
      rw [hreply huncached, settle_closed hw hnone, Store.perform, effect_closed hopen]
  | some pos =>
      obtain ⟨d, hd, hpos⟩ := Option.bind_eq_some_iff.mp hopen
      obtain ⟨hreply, g, hg, htape⟩ := huncached.spec (attach_some hd hpos)
      rw [hreply, settle_view hw hd hg, htape, Store.perform, effect_open hd hpos]
      rfl

theorem exchange_view (s : SharedFile) (i j : Nat) :
    (s.exchange i j).map view = s.view.exchange i j := by
  simp only [exchange, Store.exchange, view, List.getElem?_map]
  cases s.wrappers[i]? with
  | none => rfl
  | some a =>
      cases s.wrappers[j]? with
      | none => rfl
      | some b =>
          simp only [Option.bind_eq_bind, Option.map_some, Option.bind_some, FdT.swap_eq, view,
            List.map_set]

theorem serve_view (s : SharedFile) {request : FileRequest} (huncached : request.Uncached) :
    (s.serve request).map (Prod.map id view) = s.view.serve request := by
  have hhandle : ∀ i, s.view.handles[i]? = s.wrappers[i]?.map FdT.fd :=
    fun _ => List.getElem?_map
  cases request with
  | openFile filename temp granted =>
      cases granted <;>
        simp [serve, Store.serve, view, add]
  | dup i granted =>
      simp only [serve, Store.serve, hhandle]
      cases s.wrappers[i]? with
      | none => rfl
      | some w => simp [view, add]
  | moveConstruct i =>
      simp only [serve, Store.serve, hhandle]
      cases s.wrappers[i]? with
      | none => rfl
      | some w =>
          simp only [Option.bind_eq_bind, Option.map_some, Option.bind_some, Prod.map, id, view, add,
            FdT.moveConstruct_eq, List.map_append, List.map_set, List.map_cons, List.map_nil]
          rfl
  | moveAssign i j =>
      simp only [serve, Store.serve, ← exchange_view, Option.map_map]
      rfl
  | swap i j =>
      simp only [serve, Store.serve, ← exchange_view, Option.map_map]
      rfl
  | destroy i =>
      simp only [serve, Store.serve, hhandle]
      cases s.wrappers[i]? with
      | none => rfl
      | some w =>
          simp [view, List.eraseIdx_map]
  | tell i =>
      simp only [serve, Store.serve, hhandle]
      cases s.wrappers[i]? with
      | none => rfl
      | some w =>
          have htell : (s.attach w).tell =
              (w.fd.bind fun d => s.positions[d]?).elim (-1) fun pos => (pos : Int) := by
            cases hopen : w.fd.bind fun d => s.positions[d]? with
            | none => simp only [FdT.tell, attach_none hopen, Option.elim]
            | some pos =>
                obtain ⟨d, hd, hpos⟩ := Option.bind_eq_some_iff.mp hopen
                exact FdT.tell_eq (attach_some hd hpos)
          simp only [Option.bind_eq_bind, Option.map_some, Option.bind_some, Prod.map, id, htell]
          rfl
  | via i call =>
      simp only [serve, Store.serve, hhandle]
      cases hw : s.wrappers[i]? with
      | none => rfl
      | some w => exact congrArg some (via_view hw huncached)

theorem exchange_file {j : Nat} (h : s.exchange i j = some s') :
    s'.file = s.file ∧ s'.positions = s.positions := by
  obtain ⟨a, _, h⟩ := Option.bind_eq_some_iff.mp h
  obtain ⟨b, _, h⟩ := Option.bind_eq_some_iff.mp h
  cases h
  exact ⟨rfl, rfl⟩

theorem step_tape {request : FileRequest} (h : s.step request = some s') :
    s'.file.tape = (s.view.edit request).elim s.file.tape s.file.tape.edited := by
  obtain ⟨⟨reply, next⟩, hserve, rfl⟩ := Option.map_eq_some_iff.mp h
  cases request with
  | openFile filename temp granted =>
      cases granted <;> cases hserve <;> rfl
  | dup i granted =>
      obtain ⟨w, _, hserve⟩ := Option.bind_eq_some_iff.mp hserve
      cases hserve
      rfl
  | moveConstruct i =>
      obtain ⟨w, _, hserve⟩ := Option.bind_eq_some_iff.mp hserve
      cases hserve
      rfl
  | moveAssign i j =>
      obtain ⟨next, hexchange, heq⟩ := Option.map_eq_some_iff.mp hserve
      cases heq
      rw [(exchange_file hexchange).1]
      rfl
  | swap i j =>
      obtain ⟨next, hexchange, heq⟩ := Option.map_eq_some_iff.mp hserve
      cases heq
      rw [(exchange_file hexchange).1]
      rfl
  | destroy i =>
      obtain ⟨w, _, hserve⟩ := Option.bind_eq_some_iff.mp hserve
      cases hserve
      rfl
  | tell i =>
      obtain ⟨w, _, hserve⟩ := Option.bind_eq_some_iff.mp hserve
      cases hserve
      rfl
  | via i call =>
      obtain ⟨w, hw, hserve⟩ := Option.bind_eq_some_iff.mp hserve
      cases hserve
      have hedit : s.view.edit (.via i call) = (s.view.effect w.fd call).bind fun r => r.2.edit := by
        have hhandle : s.view.handles[i]? = some w.fd := by
          rw [show s.view.handles = s.wrappers.map FdT.fd from rfl, List.getElem?_map, hw]
          rfl
        simp only [Store.edit, hhandle, Option.bind_eq_bind, Option.bind_some]
      cases hopen : w.fd.bind fun d => s.positions[d]? with
      | none =>
          obtain ⟨hnone, _⟩ := FdCall.apply_closed (attach_none hopen) call
          rw [hedit, effect_closed hopen]
          exact congrArg Store.tape (settle_closed hw hnone)
      | some pos =>
          obtain ⟨d, hd, hpos⟩ := Option.bind_eq_some_iff.mp hopen
          obtain ⟨g, pos', hg, htape⟩ := FdCall.apply_tape (attach_some hd hpos) call
          rw [hedit, effect_open hd hpos]
          exact (congrArg Store.tape (settle_view hw hd hg)).trans htape

end Steps

/-! ## What a run comes to -/

/-- Whatever the requests, the wrappers answer as the tape does: flags, cached
lengths, names and moves make no difference. -/
theorem transcript_store (s : SharedFile) {requests : List FileRequest}
    (huncached : ∀ request ∈ requests, request.Uncached) :
    (transcript serve s requests).map (Prod.map id view) =
      transcript Store.serve s.view requests := by
  apply transcript_view view (I := fun _ => True) _ _ trivial huncached
  · intro s request r _ _ _
    trivial
  · intro s request _ hrequest
    exact serve_view s hrequest

def sample : SharedFile where
  file := ⟨[10, 20, 30, 40, 50, 60], by decide⟩
  positions := [0, 0]
  wrappers := [{ fd := some 0 }, { fd := some 0 }, { fd := some 1 }]

def sampleRequests : List FileRequest :=
  [.via 0 (.read 2), .via 2 (.seek 3 .set), .via 2 (.write [7, 8] (.accepted 2)),
    .via 1 (.resize 4 true), .dup 0 true]

theorem transcript_store_sample :
    (transcript serve sample sampleRequests).map (Prod.map id view) =
      transcript Store.serve sample.view sampleRequests :=
  transcript_store sample (by
    simp only [sampleRequests, List.forall_mem_cons]
    exact ⟨trivial, trivial, trivial, trivial, trivial, fun _ h => absurd h List.not_mem_nil⟩)

/-- The edits that the requests make one after another. -/
def edits : SharedFile → List FileRequest → List (Edit UInt8)
  | _, [] => []
  | s, request :: requests =>
      (s.view.edit request).toList ++
        (s.step request).elim [] fun next => edits next requests

theorem perform_tape {s s' : SharedFile} {requests : List FileRequest}
    (h : perform step s requests = some s') :
    s'.file.tape = (s.edits requests).foldl edited s.file.tape := by
  induction requests generalizing s with
  | nil =>
      cases h
      rfl
  | cons request requests ih =>
      obtain ⟨next, hstep, hrest⟩ := Option.bind_eq_some_iff.mp h
      have htape := step_tape hstep
      rw [ih hrest, edits, hstep, Option.elim, List.foldl_append, htape]
      cases s.view.edit request <;> rfl

/-- After any run, a read through any wrapper delivers the bytes from the
wrapper's position on, up to the end of the file, each as the last edit that
reached it left it, and as it was at first if none did. -/
theorem read_last_edit {s s' : SharedFile} {requests : List FileRequest}
    (hrun : perform step s requests = some s') {i pos : Nat}
    (htell : s'.serve (.tell i) = some (.offset pos, s')) (len : Nat) :
    ∃ bytes next, s'.serve (.via i (.read len)) = some (.bytes (some bytes), next) ∧
      bytes.length = min len (s'.file.size - pos) ∧
      ∀ k byte, bytes[k]? = some byte →
        byte = (((s.edits requests).reverse.findSome? (Edit.writes · (pos + k))).getD
          (s.file.tape.cell (pos + k))) := by
  obtain ⟨w, hw, heq⟩ := Option.bind_eq_some_iff.mp htell
  simp only [Option.some.injEq, Prod.mk.injEq, FileReply.offset.injEq, and_true] at heq
  obtain ⟨d, hd, hpos⟩ := attach_of_tell heq
  have hread := read_effect (attach_some hd hpos) len
  have hserve : s'.serve (.via i (.read len)) =
      some (.bytes (some (s'.file.tape.window pos len)),
        s'.settle i w (FdCall.apply (s'.attach w) (.read len))) := by
    simp only [serve, hw, Option.bind_eq_bind, Option.bind_some]
    exact congrArg (fun reply => some (reply, _)) hread.1
  refine ⟨_, _, hserve, window_length _ _ _, ?_⟩
  intro k byte hk
  rw [getElem?_window hk, perform_tape hrun, cell_edits]

def sampleLater : SharedFile := (perform step sample sampleRequests).getD sample

theorem sample_run : perform step sample sampleRequests = some sampleLater := rfl

theorem read_last_edit_sample :
    ∃ bytes next, sampleLater.serve (.via 1 (.read 9)) = some (.bytes (some bytes), next) ∧
      bytes.length = min 9 (sampleLater.file.size - 2) ∧
      ∀ k byte, bytes[k]? = some byte →
        byte = (((sample.edits sampleRequests).reverse.findSome? (Edit.writes · (2 + k))).getD
          (sample.file.tape.cell (2 + k))) :=
  @read_last_edit _ _ _ sample_run 1 2 rfl 9

/-! ## Bytes that are left alone -/

def Spared (first last : Nat) (s : SharedFile) (request : FileRequest) : Prop :=
  ∀ e ∈ s.view.edit request, e.Spares first last

def Shows (pos : Nat) (bytes : Bytes) (s : SharedFile) : Prop :=
  pos + bytes.length ≤ s.file.size ∧ slice s.file.content pos bytes.length = bytes

theorem Shows.step {s s' : SharedFile} {pos : Nat} {bytes : Bytes} {request : FileRequest}
    (h : Shows pos bytes s) (hspared : Spared pos (pos + bytes.length) s request)
    (hstep : s.step request = some s') : Shows pos bytes s' := by
  have htape := step_tape hstep
  unfold Shows at *
  rw [← RegularFile.tape_window] at h ⊢
  show pos + bytes.length ≤ s'.file.tape.size ∧ _
  cases hedit : s.view.edit request with
  | none =>
      rw [hedit] at htape
      rw [htape]
      exact h
  | some e =>
      have hspares : e.Spares pos (pos + bytes.length) := hspared e hedit
      rw [hedit] at htape
      rw [htape]
      exact ⟨hspares.sizeAfter h.1, (window_edited hspares h.1).trans h.2⟩

/-- Bytes that no step edits stand where they stood. -/
theorem Shows.run {s s' : SharedFile} {pos : Nat} {bytes : Bytes} (h : Shows pos bytes s)
    (hrun : Reaches SharedFile.step (Spared pos (pos + bytes.length)) s s') : Shows pos bytes s' :=
  hrun.invariant h fun _ _ _ hs hspared hstep => hs.step hspared hstep

theorem shows_of_write {s : SharedFile} {w : FdT (Option Nat)} {i pos : Nat} {bytes : Bytes}
    {outcome : WriteOutcome} {fd : Fd} (hne : bytes ≠ []) (htell : (s.attach w).tell = pos)
    (hwrite : (s.attach w).write bytes outcome = (true, fd)) : Shows pos bytes (s.settle i w fd) := by
  obtain ⟨d, hd, hpos⟩ := attach_of_tell htell
  obtain ⟨hreply, g, hg, htape⟩ := write_effect (attach_some hd hpos) bytes outcome
  rw [hwrite] at hreply
  have hfd : fd.fd = some ⟨g, (FdCall.effect s.file.tape pos (.write bytes outcome)).pos⟩ := by
    rwa [hwrite] at hg
  have hfile : (s.settle i w fd).file = g := by
    simp only [settle, hd, hfd]
  have hstored : FdCall.effect s.file.tape pos (.write bytes outcome) =
      ⟨.flag true, pos + bytes.length, some (.put pos bytes)⟩ := by
    cases outcome with
    | failed => cases hreply
    | accepted count =>
        unfold FdCall.effect at hreply ⊢
        dsimp only at hreply ⊢
        split at hreply
        · rename_i hroom
          have hlen : (bytes.take count).length = bytes.length := by
            injection hreply with hreply
            exact beq_iff_eq.mp hreply.symm
          have hall : bytes.take count = bytes := by
            rw [List.length_take] at hlen
            exact List.take_of_length_le (by omega)
          rw [hall] at hroom ⊢
          rw [if_pos hroom, beq_self_eq_true]
        · cases hreply
  rw [hstored] at htape
  have htape' : g.tape = s.file.tape.edited (.put pos bytes) := htape
  unfold Shows
  rw [hfile, ← RegularFile.tape_window]
  show pos + bytes.length ≤ g.tape.size ∧ _
  rw [htape']
  refine ⟨?_, window_put _ _ _⟩
  have hlen : bytes.length ≠ 0 := fun h => hne (List.length_eq_zero_iff.mp h)
  show _ ≤ if bytes.length = 0 then _ else _
  rw [if_neg hlen]
  exact Nat.le_max_right _ _

/-- An integer that one wrapper has written, in whichever byte order, is read
back through any other that comes to its place, whatever has happened in
between, as long as nothing was written into its bytes and the file was not cut
off in front of their end. -/
theorem field_survives {s s' : SharedFile} {w v : FdT (Option Nat)} {i pos : Nat} (x : Field)
    {outcome : WriteOutcome} {fd : Fd} (hat : (s.attach w).tell = pos)
    (hwritten : x.type.write (s.attach w) outcome x.order x.value = (true, fd))
    (hrun : Reaches step (Spared pos (pos + x.width)) (s.settle i w fd) s')
    (hback : (s'.attach v).tell = pos) :
    x.type.read (s'.attach v) x.order =
      (true, x.value, (s'.attach v).movedTo s'.file (pos + x.width)) := by
  rw [FieldT.write_eq] at hwritten
  rw [← x.bytes_length] at hrun
  obtain ⟨hsize, hslice⟩ := (shows_of_write x.bytes_ne_nil hat hwritten).run hrun
  obtain ⟨d, hd, hpos⟩ := attach_of_tell hback
  rw [x.bytes_length] at hsize hslice
  have hread := FieldT.read_of_le x.type x.order (attach_some hd hpos) hsize
  rw [show slice s'.file.content pos (Scalar.width x.type.Value) = store x.order x.value from hslice,
    load_store] at hread
  exact hread

def otherRequests : List FileRequest :=
  [.via 0 (.seek 4 .set), .via 0 (.write [9] (.accepted 1)), .via 1 .head]

def sampleField : Field := { order := .big, type := .uint16, value := (0x1234 : UInt16) }

def sampleWritten : SharedFile :=
  sample.settle 2 { fd := some 1 }
    (sampleField.type.write (sample.attach { fd := some 1 }) (.accepted 2) sampleField.order
      sampleField.value).2

def sampleBack : SharedFile := (perform step sampleWritten otherRequests).getD sample

theorem field_survives_sample :
    sampleField.type.read (sampleBack.attach { fd := some 0 }) sampleField.order =
      (true, sampleField.value,
        (sampleBack.attach { fd := some 0 }).movedTo sampleBack.file (0 + sampleField.width)) := by
  have hspared : Meets step (Spared 0 (0 + sampleField.width)) sampleWritten otherRequests := by
    refine ⟨?_, ?_, ?_, trivial⟩ <;> rintro e ⟨⟩
    decide
  have hrun : Reaches step (Spared 0 (0 + sampleField.width)) sampleWritten sampleBack :=
    Reaches.perform .start hspared rfl
  exact @field_survives sample sampleBack { fd := some 1 } { fd := some 0 } 2 0 sampleField
    (.accepted 2) _ rfl rfl hrun rfl

/-! ## Bytes shared between duplicates -/

def Steady : FdCall → Prop
  | .read _ | .length => True
  | _ => False

/-- The request edits nothing, and what it does at description `d` is to read. -/
def OnlyReads (d : Nat) (s : SharedFile) : FileRequest → Prop
  | .via i call =>
      s.view.edit (.via i call) = none ∧ (s.wrappers[i]?.bind FdT.fd = some d → Steady call)
  | _ => True

def bytesRead (fd : Fd) : FdCall → Bytes
  | .read len => (fd.readRaw len).1.getD []
  | _ => []

def received (d : Nat) (s : SharedFile) : FileRequest → Bytes
  | .via i call =>
      match s.wrappers[i]? with
      | some w => if w.fd = some d then bytesRead (s.attach w) call else []
      | none => []
  | _ => []

/-- All that a run reads through description `d`, put together. -/
def receivedIn (d : Nat) : SharedFile → List FileRequest → Bytes
  | _, [] => []
  | s, request :: requests =>
      s.received d request ++ (s.step request).elim [] fun next => receivedIn d next requests

section Received

variable {s s' : SharedFile} {d pos : Nat}

theorem OnlyReads.content {request : FileRequest} (h : OnlyReads d s request)
    (hstep : s.step request = some s') : s'.file.content = s.file.content := by
  have hedit : s.view.edit request = none := by
    cases request with
    | via i call => exact h.1
    | _ => rfl
  have htape := step_tape hstep
  rw [hedit] at htape
  exact RegularFile.tape_injective htape

/-- A steady call reads from its position on, or does nothing. -/
theorem Steady.apply {fd : Fd} {f : RegularFile} {call : FdCall} (h : Steady call)
    (hfd : fd.fd = some ⟨f, pos⟩) :
    bytesRead fd call = slice f.content pos (bytesRead fd call).length ∧
      (call.apply fd).fd = some ⟨f, pos + (bytesRead fd call).length⟩ := by
  cases call with
  | read len =>
      have hbytes : bytesRead fd (.read len) = slice f.content pos len := by
        rw [bytesRead, FdT.readRaw_eq hfd]
        rfl
      rw [hbytes, FdCall.apply, FdT.readRaw_eq hfd]
      refine ⟨?_, rfl⟩
      rw [slice_length, slice, slice, List.take_eq_take_iff, List.length_drop]
      omega
  | length => exact ⟨List.take_zero.symm, (FdT.lengthOf_fd fd).trans hfd⟩
  | _ => exact h.elim

/-- A step that only reads at the description takes the next bytes of the file. -/
theorem step_received {request : FileRequest} (hpos : s.positions[d]? = some pos)
    (honly : OnlyReads d s request) (hstep : s.step request = some s') :
    s.received d request = slice s.file.content pos (s.received d request).length ∧
      s'.positions[d]? = some (pos + (s.received d request).length) := by
  obtain ⟨⟨reply, next⟩, hserve, rfl⟩ := Option.map_eq_some_iff.mp hstep
  have hnothing : s.received d request = [] → next.positions[d]? = some pos →
      s.received d request = slice s.file.content pos (s.received d request).length ∧
        next.positions[d]? = some (pos + (s.received d request).length) := by
    intro hnone hsame
    rw [hnone]
    exact ⟨List.take_zero.symm, hsame⟩
  cases request with
  | openFile filename temp granted =>
      apply hnothing rfl
      have hlt := (List.getElem?_eq_some_iff.mp hpos).choose
      cases granted <;> cases hserve
      · exact hpos
      · exact (List.getElem?_append_left hlt).trans hpos
  | dup i granted =>
      obtain ⟨w, _, hserve⟩ := Option.bind_eq_some_iff.mp hserve
      cases hserve
      exact hnothing rfl hpos
  | moveConstruct i =>
      obtain ⟨w, _, hserve⟩ := Option.bind_eq_some_iff.mp hserve
      cases hserve
      exact hnothing rfl hpos
  | moveAssign i j =>
      obtain ⟨_, hexchange, heq⟩ := Option.map_eq_some_iff.mp hserve
      cases heq
      exact hnothing rfl ((congrArg (·[d]?) (exchange_file hexchange).2).trans hpos)
  | swap i j =>
      obtain ⟨_, hexchange, heq⟩ := Option.map_eq_some_iff.mp hserve
      cases heq
      exact hnothing rfl ((congrArg (·[d]?) (exchange_file hexchange).2).trans hpos)
  | destroy i =>
      obtain ⟨w, _, hserve⟩ := Option.bind_eq_some_iff.mp hserve
      cases hserve
      exact hnothing rfl hpos
  | tell i =>
      obtain ⟨w, _, hserve⟩ := Option.bind_eq_some_iff.mp hserve
      cases hserve
      exact hnothing rfl hpos
  | via i call =>
      obtain ⟨w, hw, hserve⟩ := Option.bind_eq_some_iff.mp hserve
      cases hserve
      have hreceived : s.received d (.via i call) =
          if w.fd = some d then bytesRead (s.attach w) call else [] := by
        rw [received, hw]
      by_cases hd : w.fd = some d
      · -- the call is on the description itself
        rw [if_pos hd] at hreceived
        have hsteady : Steady call := honly.2 (by rw [hw, Option.bind_some, hd])
        obtain ⟨hslice, hafter⟩ := hsteady.apply (attach_some hd hpos)
        have hlt := (List.getElem?_eq_some_iff.mp hpos).choose
        rw [hreceived]
        refine ⟨hslice, ?_⟩
        have hpositions := congrArg Store.positions (settle_view hw hd hafter)
        exact (congrArg (·[d]?) hpositions).trans (List.getElem?_set_self hlt)
      · rw [if_neg hd] at hreceived
        apply hnothing hreceived
        cases hopen : w.fd.bind fun d => s.positions[d]? with
        | none =>
            obtain ⟨hnone, _⟩ := FdCall.apply_closed (attach_none hopen) call
            have hpositions := congrArg Store.positions (settle_closed hw hnone)
            exact (congrArg (·[d]?) hpositions).trans hpos
        | some pos' =>
            obtain ⟨d', hd', hpos'⟩ := Option.bind_eq_some_iff.mp hopen
            obtain ⟨g, _, hg, _⟩ := FdCall.apply_tape (attach_some hd' hpos') call
            have hne : d' ≠ d := fun heq => hd (heq ▸ hd')
            have hpositions := congrArg Store.positions (settle_view hw hd' hg)
            exact (congrArg (·[d]?) hpositions).trans ((List.getElem?_set_ne hne).trans hpos)

/-- However many wrappers read through one description, in whatever order and
whatever else is read elsewhere, the bytes they receive between them are those
of the file from its position on: none is skipped and none received twice. -/
theorem received_in_order {requests : List FileRequest} (hpos : s.positions[d]? = some pos)
    (honly : Meets step (OnlyReads d) s requests) (hrun : perform step s requests = some s') :
    s'.file.content = s.file.content ∧
      s.receivedIn d requests = slice s.file.content pos (s.receivedIn d requests).length ∧
      s'.positions[d]? = some (pos + (s.receivedIn d requests).length) := by
  induction requests generalizing s pos with
  | nil =>
      cases hrun
      exact ⟨rfl, by simp [receivedIn, slice], hpos⟩
  | cons request requests ih =>
      obtain ⟨next, hstep, hrest⟩ := Option.bind_eq_some_iff.mp hrun
      have hcontent := honly.1.content hstep
      obtain ⟨hslice, hnext⟩ := step_received hpos honly.1 hstep
      obtain ⟨hcontent', hslice', hlast⟩ := ih hnext (honly.tail hstep) hrest
      have hall : s.receivedIn d (request :: requests) =
          s.received d request ++ next.receivedIn d requests := by
        rw [receivedIn, hstep, Option.elim]
      rw [hcontent] at hslice'
      rw [hall, List.length_append, ← Nat.add_assoc]
      refine ⟨hcontent'.trans hcontent, ?_, hlast⟩
      conv_lhs => rw [hslice, hslice']
      rw [slice_append_slice]

end Received

def sharedReads : List FileRequest :=
  [.via 0 (.read 2), .via 2 (.seek 3 .set), .via 1 (.read 3)]

def sharedReadsLater : SharedFile := (perform step sample sharedReads).getD sample

theorem received_in_order_sample :
    sharedReadsLater.file.content = sample.file.content ∧
      sample.receivedIn 0 sharedReads =
        slice sample.file.content 0 (sample.receivedIn 0 sharedReads).length ∧
      sharedReadsLater.positions[0]? = some (0 + (sample.receivedIn 0 sharedReads).length) := by
  have honly : Meets step (OnlyReads 0) sample sharedReads :=
    ⟨⟨rfl, fun _ => trivial⟩, ⟨rfl, fun h => absurd h (by decide)⟩, ⟨rfl, fun _ => trivial⟩, trivial⟩
  exact received_in_order rfl honly rfl

end SharedFile

end LibNokogiri.Internal
