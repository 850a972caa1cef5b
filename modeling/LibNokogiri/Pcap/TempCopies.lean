import LibNokogiri.Foundation.Holdings
import LibNokogiri.Pcap.Objects

/-! # The copies of compressed captures

A compressed capture is read from a temporary copy, which is there for as long
as the capture is: the copy is created while the capture is constructed, goes
along with every swap and move, and is removed when the capture that holds it
at last is destroyed.
-/

namespace LibNokogiri.Pcap

open ByteCodec Framing Holdings Internal Loop PcapT Run

/-! ## What seeks and reads keep -/

/-- A property of a wrapper that no seek and no read takes away. -/
structure KeptByReads (P : Fd → Prop) : Prop where
  seek : ∀ file offset whence, P file → P (FdT.seek file offset whence).2
  readExact : ∀ file len, P file → P (FdT.readExact file len).2

section Frame

variable {P : Fd → Prop} {host : Order} {self : PcapT}

theorem KeptByReads.read (h : KeptByReads P) (α : Type) [Pod α] (host : Order) {file : Fd}
    (hfile : P file) : P (FdT.read α host file).2 := h.readExact file (Pod.size α) hfile

theorem KeptByReads.head (h : KeptByReads P) {file : Fd} (hfile : P file) : P file.head.2 :=
  h.seek file 0 .set hfile

theorem KeptByReads.detect (h : KeptByReads P) {file : Fd} (hfile : P file) :
    P (detectCaptrueCompression file).2 := by
  unfold detectCaptrueCompression
  dsimp only
  split <;> exact h.head (h.readExact file 2 hfile)

theorem KeptByReads.readField (h : KeptByReads P) {α : Type} [Scalar α]
    {set : α → FileHeaderT → FileHeaderT} {next : PcapT → Bool × PcapT}
    (hnext : ∀ c, P c.file → P (next c).2.file) :
    ∀ c, P c.file → P (PcapT.readField host next set c).2.file := by
  intro c hc
  have hread : P (FdT.read α host c.file).2 := h.read α host hc
  unfold PcapT.readField
  dsimp only
  split
  · exact hread
  · exact hnext _ hread

theorem KeptByReads.readVersion (h : KeptByReads P) {next : PcapT → Bool × PcapT}
    (hnext : ∀ c, P c.file → P (next c).2.file) :
    ∀ c, P c.file → P (PcapT.readVersion host next c).2.file := by
  intro c hc
  have hread : P (FdT.read UInt16 host (FdT.read UInt16 host c.file).2).2 :=
    h.read UInt16 host (h.read UInt16 host hc)
  unfold PcapT.readVersion
  dsimp only
  split
  · exact hnext _ hread
  · exact hread

theorem KeptByReads.readHeader (h : KeptByReads P) (hself : P self.file) :
    P (self.readHeader host).2.file := by
  have hread : P (FdT.read UInt32 host self.file).2 := h.read UInt32 host hself
  have hrest : ∀ c, P c.file → P (PcapT.readVersion host (readTzOffset host <|
      readTimestampFigs host <| readPcklenMax host <| readNetwork host fun c => (true, c)) c).2.file :=
    h.readVersion <| h.readField <| h.readField <| h.readField <| h.readField fun _ hc => hc
  unfold PcapT.readHeader readMagic
  dsimp only
  split
  · exact hread
  · split
    all_goals first | exact hrest _ hread | exact hread

def FileHas (P : Fd → Prop) (self : PcapT) : Prop := P self.file

theorem KeptByReads.ingestPacket (h : KeptByReads P) (self : PcapT) (hself : FileHas P self) :
    (PcapT.ingestPacket host self).All (FileHas P) fun r => FileHas P r.2 := by
  have hhop : P (self.file.seek (ptrdiffT pktLenOffset) .cur).2 := h.seek _ _ _ hself
  unfold PcapT.ingestPacket
  dsimp only
  split
  · exact hself
  · split
    · exact hhop
    · split
      · exact h.read UInt32 host hhop
      · split
        · exact h.seek _ _ _ (h.read UInt32 host hhop)
        · exact h.seek _ _ _ (h.read UInt32 host hhop)

theorem KeptByReads.ingestPackets (h : KeptByReads P) (hself : FileHas P self) :
    FileHas P (self.ingestPackets host).2 :=
  (loop_ends self).invariant h.ingestPacket hself

theorem KeptByReads.parse (h : KeptByReads P) (hself : FileHas P self) :
    FileHas P (self.parse host) := by
  have hheader : FileHas P (self.readHeader host).2 := h.readHeader hself
  have hindex : FileHas P ((self.readHeader host).2.ingestPackets host).2 := h.ingestPackets hheader
  unfold PcapT.parse
  dsimp only
  split
  · exact hheader
  · split
    · exact hindex
    · exact hindex

theorem KeptByReads.readPacketHeader (h : KeptByReads P) (host : Order) (variant : PcapVariantT)
    {file : Fd} (hfile : P file) : P (PcapT.readPacketHeader host variant file).2 := by
  unfold PcapT.readPacketHeader
  dsimp only
  split
  · exact h.read _ host hfile
  · exact h.read _ host hfile

theorem KeptByReads.getStoredPacket (h : KeptByReads P) (hself : P self.file)
    (storage : PacketStorageT) : P (self.getStoredPacket host storage).2.1 := by
  have hheader := h.readPacketHeader host self.header.variant
    (h.seek self.file (ptrdiffT storage.offset) .set hself)
  unfold PcapT.getStoredPacket
  dsimp only
  split
  · exact h.seek _ _ _ hself
  · split
    · exact hheader
    · split <;> exact h.readExact _ _ hheader

theorem KeptByReads.fromCopy (h : KeptByReads P) {z : Zlib} {copied : Int32 × Decompression z}
    (hcopied : copied.2.Outputs P) (readOnly prefetch : Bool) :
    FileHas P (PcapT.fromCopy host copied readOnly prefetch) := by
  have hhead : P copied.2.file.head.2 := h.head hcopied
  unfold PcapT.fromCopy
  dsimp only
  split
  · exact hcopied
  · split
    · exact hhead
    · exact h.parse hhead

end Frame

/-! ## The copy that a capture holds -/

/-- The wrapper was opened under this name, as temporary or not, and whether
that succeeded. -/
structure OpenedAs (temp : Bool) (filename : String) (isOpen : Bool) (file : Fd) : Prop where
  temp : file.temp = temp
  filename : file.filename = filename
  isOpen : file.fd.isSome = isOpen

section OpenedAs

variable {temp isOpen : Bool} {filename : String}

theorem openedAs_openFile (opened : Option RegularFile) (filename : String) (temp : Bool) :
    OpenedAs temp filename opened.isSome (openFile opened filename temp) :=
  ⟨rfl, rfl, Option.isSome_map⟩

theorem openedAs_kept : KeptByReads (OpenedAs temp filename isOpen) where
  seek file offset whence h := by
    refine ⟨?_, ?_, ?_⟩
    · rw [FdT.seek_kept]
      exact h.temp
    · rw [FdT.seek_kept]
      exact h.filename
    · rw [← h.isOpen]
      simp only [FdT.seek, FdT.lengthOf_fd]
      cases file.fd <;> rfl
  readExact file len h := by
    refine ⟨?_, ?_, ?_⟩
    · rw [FdT.readExact_kept]
      exact h.temp
    · rw [FdT.readExact_kept]
      exact h.filename
    · rw [← h.isOpen]
      unfold FdT.readExact FdT.readRaw
      cases hfd : file.fd <;> simp [hfd]

theorem openedAs_written {file : Fd} (h : OpenedAs temp filename isOpen file) (data : Bytes)
    (outcome : WriteOutcome) : OpenedAs temp filename isOpen (file.write data outcome).2 := by
  refine ⟨?_, ?_, ?_⟩
  · rw [FdT.write_rest]
    exact h.temp
  · rw [FdT.write_rest]
    exact h.filename
  · rw [← h.isOpen]
    unfold FdT.write
    cases hfd : file.fd <;> simp [hfd]

end OpenedAs

/-- The file that `~fd_t` removes when the capture is destroyed. -/
def copies (capture : PcapT) : List String :=
  if capture.file.fd.isSome && capture.file.temp then [capture.file.filename] else []

theorem copies_eq {temp isOpen : Bool} {filename : String} {capture : PcapT}
    (h : FileHas (OpenedAs temp filename isOpen) capture) :
    copies capture = if isOpen && temp then [filename] else [] := by
  rw [copies, h.temp, h.filename, h.isOpen]

def created (os : Opens) (file : String) (compression : CaptureCompressionT) : List String :=
  let cap := openFile os.capture file false
  let detected :=
    if compression = .autodetect then detectCaptrueCompression cap else (compression, cap)
  if detected.1 = .compressed ∧ os.temporary.isSome then [os.temporaryName] else []

/-- A capture comes out of its constructor with the copy that was created for
it, whether it is valid or not. -/
theorem copies_construct (host : Order) (z : Zlib) (os : Opens) (file : String)
    (compression : CaptureCompressionT) (readOnly prefetch : Bool) :
    copies (construct host z os file compression readOnly prefetch) =
      created os file compression := by
  have hcap := openedAs_openFile os.capture file false
  have hcopied : ∀ gz : GzFileT z, (gz.decompressTo (openFile os.temporary os.temporaryName true)
      os.writes).2.Outputs (OpenedAs true os.temporaryName os.temporary.isSome) :=
    fun gz => gz.decompressTo_keeps os.writes
      (fun _ data outcome h => openedAs_written h data outcome)
      (openedAs_openFile os.temporary os.temporaryName true)
  cases hdetected : (if compression = .autodetect then
      detectCaptrueCompression (openFile os.capture file false)
    else (compression, openFile os.capture file false)) with
  | mk mode cap =>
      have hcreated : created os file compression =
          if mode = .compressed ∧ os.temporary.isSome then [os.temporaryName] else [] := by
        simp only [created, hdetected]
      rw [construct_eq host z os file compression readOnly prefetch hdetected, hcreated]
      by_cases hmode : mode = .compressed
      · rw [if_pos hmode, copies_eq (openedAs_kept.fromCopy (hcopied _) readOnly prefetch)]
        simp [hmode]
      · have hplain : OpenedAs false file os.capture.isSome cap := by
          split at hdetected
          · have hdetect := openedAs_kept.detect hcap
            rwa [hdetected] at hdetect
          · cases hdetected
            exact hcap
        have hparsed := @KeptByReads.parse _ host (setUp cap mode readOnly prefetch) openedAs_kept
          hplain
        rw [if_neg hmode, copies_eq hparsed]
        simp [hmode]

theorem copies_getPacket {host : Order} {self next : PcapT} {idx : Nat} {packet : Option PacketT}
    (h : (self.getPacket host idx).outcome = some (packet, next)) : copies next = copies self := by
  rcases getPacket_cases h with rfl | ⟨storage, _, rfl⟩
  · rfl
  · have hself : FileHas (OpenedAs self.file.temp self.file.filename self.file.fd.isSome) self :=
      ⟨rfl, rfl, rfl⟩
    rw [copies_eq hself]
    exact copies_eq (openedAs_kept.getStoredPacket hself storage)

/-! ## Captures and the temporary directory -/

/-- The captures of a process, and the files in the temporary directory. -/
structure Session where
  captures : World := []
  directory : List String
deriving DecidableEq

namespace Session

inductive Action
  | call (a : Pcap.Action)
  | destroy (i : Nat)

def createdBy : Pcap.Action → List String
  | .construct os file compression _ _ => created os file compression
  | _ => []

def step (host : Order) (z : Zlib) (s : Session) : Action → Option Session
  | .call a => do
      let captures ← act host z s.captures a
      some { captures, directory := s.directory ∪ createdBy a }
  | .destroy i => do
      let c ← s.captures[i]?
      some { captures := s.captures.eraseIdx i
             directory := s.directory.filter fun name => name ∉ copies c }

/-- No file has the name that the generator draws for a copy. -/
def Fresh (s : Session) : Action → Prop
  | .call a => ∀ name ∈ createdBy a, name ∉ s.directory
  | .destroy _ => True

variable {host : Order} {z : Zlib} {s s' : Session} {directory : List String}

theorem act_held {w w' : World} {a : Pcap.Action} (hact : act host z w a = some w') :
    (held copies w').Perm (held copies w ++ createdBy a) := by
  have hexchange : ∀ {op : PcapT → PcapT → PcapT × PcapT} {i j : Nat},
      (∀ a b, (op a b).1.file = b.file ∧ (op a b).2.file = a.file) →
      exchange op w i j = some w' → (held copies w').Perm (held copies w) := by
    intro op i j hop hex
    obtain ⟨a, ha, hex⟩ := Option.bind_eq_some_iff.mp hex
    obtain ⟨b, hb, hex⟩ := Option.bind_eq_some_iff.mp hex
    cases hex
    apply held_exchange ha hb
    · rw [copies, (hop a b).1, copies]
    · rw [copies, (hop a b).2, copies]
  cases a with
  | construct os file compression readOnly prefetch =>
      cases hact
      rw [held_append, copies_construct]
      rfl
  | getPacket i idx =>
      obtain ⟨c, hc, hact⟩ := Option.bind_eq_some_iff.mp hact
      obtain ⟨r, hr, hact⟩ := Option.bind_eq_some_iff.mp hact
      cases hact
      simp only [createdBy, List.append_nil]
      exact held_set_same hc (copies_getPacket hr)
  | swap i j =>
      simp only [createdBy, List.append_nil]
      exact hexchange (fun _ _ => ⟨rfl, rfl⟩) hact
  | moveConstruct i =>
      obtain ⟨c, hc, hact⟩ := Option.bind_eq_some_iff.mp hact
      cases hact
      simp only [createdBy, List.append_nil]
      exact held_move hc rfl rfl
  | moveAssign i j =>
      simp only [createdBy, List.append_nil]
      exact hexchange (fun _ _ => ⟨rfl, rfl⟩) hact

/-- A step of a session: files are created and held, or released and removed. -/
theorem step_cases {a : Action} (hstep : step host z s a = some s') :
    (∃ call, a = .call call ∧
        (held copies s'.captures).Perm (held copies s.captures ++ createdBy call) ∧
        s'.directory = s.directory ∪ createdBy call) ∨
      ∃ names, (names ++ held copies s'.captures).Perm (held copies s.captures) ∧
        s'.directory = s.directory.filter fun name => name ∉ names := by
  cases a with
  | call call =>
      obtain ⟨captures, hact, hstep⟩ := Option.bind_eq_some_iff.mp hstep
      cases hstep
      exact .inl ⟨call, rfl, act_held hact, rfl⟩
  | destroy i =>
      obtain ⟨c, hc, hstep⟩ := Option.bind_eq_some_iff.mp hstep
      cases hstep
      exact .inr ⟨copies c, held_eraseIdx hc, rfl⟩

theorem step_owned {a : Action} (hs : ∀ name ∈ s.directory, name ∈ directory ∨
      name ∈ held copies s.captures) (hstep : step host z s a = some s') :
    ∀ name ∈ s'.directory, name ∈ directory ∨ name ∈ held copies s'.captures := by
  intro name hname
  rcases step_cases hstep with ⟨call, _, hheld, hdirectory⟩ | ⟨names, hheld, hdirectory⟩
  · rw [hdirectory, List.mem_union_iff] at hname
    rw [hheld.mem_iff, List.mem_append, ← or_assoc]
    exact hname.imp_left (hs name)
  · rw [hdirectory, List.mem_filter] at hname
    obtain ⟨hname, hkept⟩ := hname
    refine (hs name hname).imp_right fun hmem => ?_
    rw [← hheld.mem_iff, List.mem_append] at hmem
    exact hmem.resolve_left (by simpa using hkept)

/-- The copies have files of their own, all of them in the directory, and the
files that were there still are. -/
structure Backed (directory : List String) (s : Session) : Prop where
  distinct : (held copies s.captures).Nodup
  present : ∀ name ∈ held copies s.captures, name ∈ s.directory ∧ name ∉ directory
  kept : ∀ name ∈ directory, name ∈ s.directory

theorem created_nodup (a : Pcap.Action) : (createdBy a).Nodup := by
  have hone : ∀ (p : Prop) [Decidable p] (name : String), (if p then [name] else []).Nodup := by
    intro p _ name
    by_cases hp : p <;> simp [hp]
  cases a with
  | construct os file compression readOnly prefetch => exact hone _ _
  | _ => exact List.nodup_nil

theorem step_backed {a : Action} (hs : Backed directory s) (hfresh : Fresh s a)
    (hstep : step host z s a = some s') : Backed directory s' := by
  rcases step_cases hstep with ⟨call, rfl, hheld, hdirectory⟩ | ⟨names, hheld, hdirectory⟩
  · refine ⟨?_, ?_, ?_⟩
    · rw [hheld.nodup_iff, List.nodup_append]
      refine ⟨hs.distinct, created_nodup call, ?_⟩
      rintro name hold _ hnew rfl
      exact hfresh name hnew (hs.present name hold).1
    · intro name hname
      rw [hheld.mem_iff, List.mem_append] at hname
      rw [hdirectory, List.mem_union_iff]
      rcases hname with hold | hnew
      · exact ⟨.inl (hs.present name hold).1, (hs.present name hold).2⟩
      · exact ⟨.inr hnew, fun hmem => hfresh name hnew (hs.kept name hmem)⟩
    · intro name hname
      rw [hdirectory, List.mem_union_iff]
      exact .inl (hs.kept name hname)
  · have hdistinct := hs.distinct
    rw [← hheld.nodup_iff, List.nodup_append] at hdistinct
    refine ⟨hdistinct.2.1, ?_, ?_⟩
    · intro name hname
      have hpresent := hs.present name (hheld.mem_iff.mp (List.mem_append_right _ hname))
      have hother : name ∉ names := fun hmem => hdistinct.2.2 name hmem name hname rfl
      rw [hdirectory, List.mem_filter]
      exact ⟨⟨hpresent.1, by simpa using hother⟩, hpresent.2⟩
    · intro name hname
      have hother : name ∉ names := fun hmem =>
        (hs.present name (hheld.mem_iff.mp (List.mem_append_left _ hmem))).2 hname
      rw [hdirectory, List.mem_filter]
      exact ⟨hs.kept name hname, by simpa using hother⟩

/-- No temporary file outlives the capture it was made for: what a run leaves in
the directory was there before or is the copy of a capture that still exists.
And as long as the generator draws no name twice, each copy is a file of its own
that stays until its capture is destroyed, and no other file is ever removed. -/
theorem copies_accounted (h : Reachable (step host z) ⟨[], directory⟩ s) :
    (∀ name ∈ s.directory, name ∈ directory ∨ name ∈ held copies s.captures) ∧
      (Reaches (step host z) Fresh ⟨[], directory⟩ s →
        (held copies s.captures).Nodup ∧
          ∀ name, (name ∈ s.directory ↔ name ∈ directory ∨ name ∈ held copies s.captures) ∧
            ¬ (name ∈ directory ∧ name ∈ held copies s.captures)) := by
  have howned : ∀ name ∈ s.directory, name ∈ directory ∨ name ∈ held copies s.captures := by
    apply h.invariant (I := fun s => ∀ name ∈ s.directory, name ∈ directory ∨
      name ∈ held copies s.captures)
    · exact fun name hname => .inl hname
    · intro s a s' hs _ hstep
      exact step_owned hs hstep
  refine ⟨howned, ?_⟩
  intro hfresh
  have hbacked : Backed directory s := by
    apply hfresh.invariant (I := Backed directory)
    · exact ⟨List.nodup_nil, fun _ hname => absurd hname List.not_mem_nil, fun _ hname => hname⟩
    · intro s a s' hs hok hstep
      exact step_backed hs hok hstep
  refine ⟨hbacked.distinct, fun name => ⟨⟨howned name, ?_⟩, ?_⟩⟩
  · rintro (hold | hheld)
    · exact hbacked.kept name hold
    · exact (hbacked.present name hheld).1
  · rintro ⟨hold, hheld⟩
    exact (hbacked.present name hheld).2 hold

def copyingRun : List Action :=
  [.call (.construct { opening sampleGzip with temporaryName := "/tmp/sample.pcap" } "sample.pcap.gz"
      .autodetect true false), .call (.moveConstruct 0), .destroy 0]

theorem copyingRun_fresh :
    Meets (step .little storedZlib) Fresh ⟨[], ["/tmp/other"]⟩ copyingRun := by
  apply Meets.cons
  · show ∀ name ∈ createdBy _, name ∉ _
    decide +kernel
  intro s _
  apply Meets.cons
  · exact fun name hname => absurd hname List.not_mem_nil
  exact fun s _ => .cons trivial fun s _ => trivial

theorem copies_accounted_sample :
    ∃ s, perform (step .little storedZlib) ⟨[], ["/tmp/other"]⟩ copyingRun = some s ∧
      held copies s.captures = ["/tmp/sample.pcap"] ∧
      (∀ name ∈ s.directory, name ∈ ["/tmp/other"] ∨ name ∈ held copies s.captures) ∧
      (held copies s.captures).Nodup ∧
        ∀ name, (name ∈ s.directory ↔ name ∈ ["/tmp/other"] ∨ name ∈ held copies s.captures) ∧
          ¬ (name ∈ ["/tmp/other"] ∧ name ∈ held copies s.captures) := by
  have hcopies : (perform (step .little storedZlib) ⟨[], ["/tmp/other"]⟩ copyingRun).map
      (fun s => held copies s.captures) = some ["/tmp/sample.pcap"] := by decide +kernel
  obtain ⟨s, hrun, hheld⟩ := Option.map_eq_some_iff.mp hcopies
  obtain ⟨howned, hfresh⟩ := copies_accounted (Reachable.perform .start hrun)
  exact ⟨s, hrun, hheld, howned, hfresh (Reaches.perform .start copyingRun_fresh hrun)⟩

end Session

end LibNokogiri.Pcap
