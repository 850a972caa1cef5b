import LibNokogiri.Pcap.Indexing

/-! # What construction makes of a file

Behind the choice between the plain and the compressed path, the constructor
is a function of the bytes it ends up holding. `Reads` says which one, for
every file; the only other outcome is a capture into which nothing was read.
-/

namespace LibNokogiri.Pcap

open ByteCodec Framing Loop Internal

theorem swappedFile_eq {host : Order} {content : Bytes} {swapped : Bool}
    {variant : PcapVariantT} (h : fileKind host content = some (swapped, variant)) :
    swappedFile host content = swapped := by
  cases swapped <;> simp [swappedFile, h]

/-- Byte order and variant of a file that has a complete file header. -/
def headed (host : Order) (content : Bytes) : Option (Bool × PcapVariantT) :=
  if 24 ≤ content.length then fileKind host content else none

theorem headed_some {host : Order} {content : Bytes} {kind : Bool × PcapVariantT}
    (h : headed host content = some kind) :
    24 ≤ content.length ∧ fileKind host content = some kind := by
  unfold headed at h
  split at h
  · exact ⟨‹_›, h⟩
  · cases h

/-- The entries that the indexing loop leaves behind, and whether it accepts. -/
def indexOf (host : Order) (content : Bytes) : List Entry × Bool :=
  match headed host content with
  | some (_, variant) => (recordFormat host variant).scan content 24
  | none => ([], false)

theorem indexOf_headed {host : Order} {content : Bytes} {swapped : Bool}
    {variant : PcapVariantT} (h : headed host content = some (swapped, variant)) :
    indexOf host content = (recordFormat host variant).scan content 24 := by
  simp only [indexOf, h]

namespace PcapT

structure Unread (f : RegularFile) (capture : PcapT) : Prop where
  fd : capture.file.fd = some ⟨f, 0⟩
  length : capture.file.LengthFresh f
  eof : 0 < f.size → capture.file.eof = false
  valid : capture.valid = false
  needsSwapping : capture.needsSwapping = false
  packets : capture.packets = []

/-- The capture is what the parser makes of `f`. -/
structure Reads (host : Order) (f : RegularFile) (capture : PcapT) : Prop where
  onFile : capture.file.OnFile f
  needsSwapping : capture.needsSwapping = swappedFile host f.content
  valid : capture.valid = (indexOf host f.content).2
  packets : capture.packets = (indexOf host f.content).1.map stored
  header : ∀ swapped variant, headed host f.content = some (swapped, variant) →
    capture.header = headerAt host swapped variant f.content

section Parse

variable {host : Order} {f : RegularFile} {self : PcapT}

theorem parse_headed {swapped : Bool} {variant : PcapVariantT} (h : self.Unread f)
    (hheaded : headed host f.content = some (swapped, variant)) :
    ∃ file : Fd, file.Measured f ∧
      self.parse host =
        { self with
          file
          needsSwapping := swapped
          header := headerAt host swapped variant f.content
          packets := ((recordFormat host variant).scan f.content 24).1.map stored
          valid := ((recordFormat host variant).scan f.content 24).2 } := by
  obtain ⟨hsize, hkind⟩ := headed_some hheaded
  have hsize' : 24 ≤ f.size := hsize
  have hread := readHeader_of_le h.fd hsize hkind h.needsSwapping
  have heof := h.eof (by omega)
  obtain ⟨file, hfile, hindex⟩ := ingestPackets_eq host 24
    { self with
      file := self.file.movedTo f 24
      needsSwapping := swapped
      header := headerAt host swapped variant f.content }
    rfl h.length heof (by decide)
  refine ⟨file, hfile, ?_⟩
  simp only [parse, hread, hindex]
  simp only [h.packets, h.valid, headerAt, List.nil_append, Bool.not_true, Bool.false_eq_true,
    if_false]
  cases ((recordFormat host variant).scan f.content 24).2 <;> rfl

theorem readHeader_unheaded (hfd : self.file.fd = some ⟨f, 0⟩)
    (hheaded : headed host f.content = none) : (self.readHeader host).1 = false := by
  by_cases hsize : 24 ≤ f.size
  · have hlen : 24 ≤ f.content.length := hsize
    rw [headed, if_pos hlen] at hheaded
    exact readHeader_unknown hfd hheaded
  · exact readHeader_of_lt hfd (by omega)

theorem parse_unheaded (h : self.Unread f) (hheaded : headed host f.content = none) :
    self.parse host = (self.readHeader host).2 := by
  simp [parse, readHeader_unheaded h.fd hheaded]

theorem parse_reads (h : self.Unread f) : (self.parse host).Reads host f := by
  cases hheaded : headed host f.content with
  | none =>
      have hcont := readHeader_continues host h.fd
      have hlength : (self.readHeader host).2.file.LengthFresh f := by
        rw [FdT.LengthFresh, hcont.length]
        exact h.length
      have hindex : indexOf host f.content = ([], false) := by simp only [indexOf, hheaded]
      rw [parse_unheaded h hheaded]
      refine ⟨⟨hcont.fd, hlength⟩, ?_, ?_, ?_, ?_⟩
      · rw [hcont.state]
        simp [h.needsSwapping]
      · rw [hcont.state, hindex]
        exact h.valid
      · rw [hcont.state, hindex]
        exact h.packets
      · intro swapped variant hsome
        rw [hheaded] at hsome
        cases hsome
  | some kind =>
      obtain ⟨swapped, variant⟩ := kind
      obtain ⟨file, hfile, hparse⟩ := parse_headed h hheaded
      have hindex := indexOf_headed hheaded
      rw [hparse]
      refine ⟨hfile.onFile, ?_, by rw [hindex], by rw [hindex], ?_⟩
      · exact (swappedFile_eq (headed_some hheaded).2).symm
      · intro swapped' variant' hsome
        rw [hheaded] at hsome
        cases hsome
        rfl

def Parsed (host : Order) (f : RegularFile) (capture : PcapT) : Prop :=
  ∃ unread : PcapT, unread.Unread f ∧ unread.parse host = capture

theorem Parsed.reads {capture : PcapT} (h : capture.Parsed host f) : capture.Reads host f := by
  obtain ⟨unread, hunread, rfl⟩ := h
  exact parse_reads hunread

theorem Parsed.measured {capture : PcapT} (h : capture.Parsed host f)
    (hpackets : capture.packets ≠ []) : capture.file.Measured f := by
  obtain ⟨unread, hunread, rfl⟩ := h
  cases hheaded : headed host f.content with
  | none =>
      rw [parse_unheaded hunread hheaded, (readHeader_continues host hunread.fd).state] at hpackets
      exact absurd hunread.packets hpackets
  | some kind =>
      obtain ⟨file, hfile, hparse⟩ := parse_headed hunread hheaded
      rw [hparse]
      exact hfile

theorem parse_closed (h : self.file.fd = none) : self.parse host = self := by
  have hread : self.file.read UInt32 host = (none, self.file) := by
    simp [FdT.read, FdT.readExact, FdT.readRaw, h]
  simp [parse, readHeader, readMagic, hread]

end Parse

/-! ## The two paths -/

def sniff (content : Bytes) : CaptureCompressionT :=
  if content.length < 2 then .unknown
  else if content.take 2 = gzipHeader then .compressed
  else .uncompressed

/-- The compression mode that the constructor settles on. -/
def settled (compression : CaptureCompressionT) (content : Bytes) : CaptureCompressionT :=
  if compression = .autodetect then sniff content else compression

theorem detect_eq {fd : Fd} {f : RegularFile} (hfd : fd.fd = some ⟨f, 0⟩)
    (hlen : fd.LengthFresh f) :
    detectCaptrueCompression fd = (sniff f.content, fd.placedAt f 0) := by
  by_cases hsize : f.content.length < 2
  · have hshort : (slice f.content 0 2).length ≠ 2 := by
      rw [slice_length]
      omega
    obtain ⟨⟨pos', hfd'⟩, hlength⟩ := FdT.readExact_onFile hfd 2
    have hhead := FdT.head_eq hfd' (by rw [FdT.LengthFresh, hlength]; exact hlen)
    simp only [detectCaptrueCompression, hhead, sniff, if_pos hsize]
    simp only [FdT.readExact, FdT.readRaw_eq hfd, if_neg hshort]
    rfl
  · have hle : 0 + 2 ≤ f.size := Nat.not_lt.mp hsize
    have hhead := FdT.head_eq (FdT.movedTo_fd fd f (0 + 2)) (hlen.movedTo (0 + 2))
    have hslice : slice f.content 0 2 = f.content.take 2 := by simp [slice]
    simp only [detectCaptrueCompression, FdT.readExact_of_le hfd hle, hhead, sniff, if_neg hsize,
      hslice, FdT.movedTo_placedAt]

theorem detect_closed {fd : Fd} (hfd : fd.fd = none) :
    (detectCaptrueCompression fd).1 = .unknown ∧ (detectCaptrueCompression fd).2.fd = none := by
  have hread : fd.readExact 2 = (none, fd) := by simp [FdT.readExact, FdT.readRaw, hfd]
  have hhead : fd.head.2.fd = none := by
    simp only [FdT.head, FdT.seek, FdT.lengthOf, hfd]
    split <;> rfl
  simp only [detectCaptrueCompression, hread, hhead, and_self]

def opened (compression : CaptureCompressionT) (f : RegularFile) (file : String) : Fd :=
  if compression = .autodetect then (openFile (some f) file false).placedAt f 0
  else openFile (some f) file false

def setUp (file : Fd) (compression : CaptureCompressionT) (readOnly prefetch : Bool) : PcapT :=
  { file, compression, readonly := readOnly, prefetch := some prefetch }

def fromCopy (host : Order) {z : Zlib} (copied : Int32 × Decompression z)
    (readOnly prefetch : Bool) : PcapT :=
  if copied.1 = -1 then setUp copied.2.file .compressed readOnly prefetch
  else
    let rewound := copied.2.file.head
    if !rewound.1 then setUp rewound.2 .compressed readOnly prefetch
    else (setUp rewound.2 .compressed readOnly prefetch).parse host

theorem opened_fd (compression : CaptureCompressionT) (f : RegularFile) (file : String) :
    (opened compression f file).fd = some ⟨f, 0⟩ := by
  unfold opened
  split <;> rfl

theorem opened_unread (compression mode : CaptureCompressionT) (f : RegularFile) (file : String)
    (readOnly prefetch : Bool) :
    (setUp (opened compression f file) mode readOnly prefetch).Unread f := by
  refine ⟨opened_fd compression f file, ?_, ?_, rfl, rfl, rfl⟩
  · unfold setUp opened
    split
    · exact .inr rfl
    · exact .inl rfl
  · intro hsize
    unfold setUp opened
    split
    · exact decide_eq_false (by omega)
    · rfl

/-- Everything the constructor does, by the outcome of the detection. -/
theorem construct_eq (host : Order) (z : Zlib) (os : Opens) (file : String)
    (compression : CaptureCompressionT) (readOnly prefetch : Bool) {mode : CaptureCompressionT}
    {cap : Fd}
    (hdetected : (if compression = .autodetect then
        detectCaptrueCompression (openFile os.capture file false)
      else (compression, openFile os.capture file false)) = (mode, cap)) :
    construct host z os file compression readOnly prefetch =
      if mode = .compressed then
        fromCopy host ((GzFileT.ofFd z cap).1.decompressTo
          (openFile os.temporary os.temporaryName true) os.writes) readOnly prefetch
      else (setUp cap mode readOnly prefetch).parse host := by
  simp only [construct, hdetected, FdT.moveAssign_eq]
  split
  · rename_i hmode
    simp only [hmode]
    rfl
  · rfl

section Construct

variable (host : Order) (z : Zlib) {os : Opens} (file : String)
  (compression : CaptureCompressionT) (readOnly prefetch : Bool) {f : RegularFile}

theorem detected_eq (hcap : os.capture = some f) :
    (if compression = .autodetect then detectCaptrueCompression (openFile os.capture file false)
      else (compression, openFile os.capture file false)) =
      (settled compression f.content, opened compression f file) := by
  rw [hcap]
  unfold settled opened
  split
  · exact detect_eq rfl (.inl rfl)
  · rfl

theorem detected_closed (hcap : os.capture = none) {mode : CaptureCompressionT} {cap : Fd}
    (hdetected : (if compression = .autodetect then
        detectCaptrueCompression (openFile os.capture file false)
      else (compression, openFile os.capture file false)) = (mode, cap)) : cap.fd = none := by
  have hnone : (openFile os.capture file false).fd = none := by rw [hcap]; rfl
  split at hdetected
  · have hclosed := (detect_closed hnone).2
    rwa [hdetected] at hclosed
  · cases hdetected
    exact hnone

theorem construct_plain (hcap : os.capture = some f)
    (hmode : settled compression f.content ≠ .compressed) :
    construct host z os file compression readOnly prefetch =
      (setUp (opened compression f file) (settled compression f.content) readOnly
        prefetch).parse host := by
  rw [construct_eq host z os file compression readOnly prefetch
    (detected_eq file compression hcap), if_neg hmode]

theorem construct_gzip (hcap : os.capture = some f)
    (hmode : settled compression f.content = .compressed) :
    construct host z os file compression readOnly prefetch =
      fromCopy host ((GzFileT.ofFd z (opened compression f file)).1.decompressTo
        (openFile os.temporary os.temporaryName true) os.writes) readOnly prefetch := by
  rw [construct_eq host z os file compression readOnly prefetch
    (detected_eq file compression hcap), if_pos hmode]

end Construct

/-! ## The capture held after construction -/

/-- A capture into which nothing was read. -/
structure Bare (capture : PcapT) : Prop where
  valid : capture.valid = false
  needsSwapping : capture.needsSwapping = false
  packets : capture.packets = []
  header : capture.header = {}

theorem setUp_bare (file : Fd) (compression : CaptureCompressionT) (readOnly prefetch : Bool) :
    (setUp file compression readOnly prefetch).Bare := ⟨rfl, rfl, rfl, rfl⟩

theorem fromCopy_parsed {host : Order} {z : Zlib} {copied : Int32 × Decompression z}
    {f : RegularFile} {pos : Nat} (readOnly prefetch : Bool) (hret : copied.1 ≠ -1)
    (hfd : copied.2.file.fd = some ⟨f, pos⟩) (hlen : copied.2.file.LengthFresh f) :
    fromCopy host copied readOnly prefetch =
        (setUp (copied.2.file.placedAt f 0) .compressed readOnly prefetch).parse host ∧
      (fromCopy host copied readOnly prefetch).Parsed host f := by
  have hparse : fromCopy host copied readOnly prefetch =
      (setUp (copied.2.file.placedAt f 0) .compressed readOnly prefetch).parse host := by
    simp [fromCopy, hret, FdT.head_eq hfd hlen]
  refine ⟨hparse, _, ⟨rfl, .inr rfl, ?_, rfl, rfl, rfl⟩, hparse.symm⟩
  intro hsize
  exact decide_eq_false (by omega)

/-- The three ways on from the copy: it failed, its output is not open, or its
output is parsed. -/
theorem fromCopy_cases (host : Order) {z : Zlib} {copied : Int32 × Decompression z}
    (readOnly prefetch : Bool) (hlength : copied.2.file.length = -1) :
    (copied.1 = -1 ∧ fromCopy host copied readOnly prefetch =
        setUp copied.2.file .compressed readOnly prefetch) ∨
      (copied.1 ≠ -1 ∧ copied.2.file.fd = none ∧ fromCopy host copied readOnly prefetch =
        setUp copied.2.file.head.2 .compressed readOnly prefetch) ∨
      ∃ g, copied.1 ≠ -1 ∧ copied.2.file.fd = some g ∧
        (fromCopy host copied readOnly prefetch).Parsed host g.file := by
  by_cases hret : copied.1 = -1
  · exact .inl ⟨hret, if_pos hret⟩
  · right
    cases hfd : copied.2.file.fd with
    | none =>
        have hhead : copied.2.file.head.1 = false := by
          simp [FdT.head, FdT.seek, hfd]
        refine .inl ⟨hret, rfl, ?_⟩
        simp only [fromCopy, if_neg hret, hhead, Bool.not_false, if_true]
    | some g =>
        exact .inr ⟨g, hret, rfl, (fromCopy_parsed readOnly prefetch hret hfd (.inl hlength)).2⟩

theorem copied_length {z : Zlib} (self : GzFileT z) (os : Opens) :
    (self.decompressTo (openFile os.temporary os.temporaryName true) os.writes).2.file.length =
      -1 := by
  rw [GzFileT.decompressTo_writes]
  rfl

theorem fromCopy_parsed_or_bare (host : Order) {z : Zlib} (gzcap : GzFileT z) (os : Opens)
    (readOnly prefetch : Bool) :
    let c := fromCopy host (gzcap.decompressTo
      (openFile os.temporary os.temporaryName true) os.writes) readOnly prefetch
    (∃ f, c.Parsed host f) ∨ c.Bare := by
  intro c
  rcases fromCopy_cases host readOnly prefetch (copied_length gzcap os) with
    ⟨_, hc⟩ | ⟨_, _, hc⟩ | ⟨g, _, _, hparsed⟩
  · right
    rw [show c = _ from hc]
    exact setUp_bare _ _ _ _
  · right
    rw [show c = _ from hc]
    exact setUp_bare _ _ _ _
  · exact .inl ⟨g.file, hparsed⟩

/-- A capture either is what the parser makes of the file it holds, or the
parser was never run on a file. -/
theorem construct_cases (host : Order) (z : Zlib) (os : Opens) (file : String)
    (compression : CaptureCompressionT) (readOnly prefetch : Bool) :
    (∃ f, (construct host z os file compression readOnly prefetch).Parsed host f ∧
        ∀ g, os.capture = some g → settled compression g.content ≠ .compressed → f = g) ∨
      (construct host z os file compression readOnly prefetch).Bare := by
  cases hcap : os.capture with
  | none =>
      cases hdetected : (if compression = .autodetect then
          detectCaptrueCompression (openFile os.capture file false)
        else (compression, openFile os.capture file false)) with
      | mk mode cap =>
          rw [construct_eq host z os file compression readOnly prefetch hdetected]
          split
          · rcases fromCopy_parsed_or_bare host (GzFileT.ofFd z cap).1 os readOnly prefetch with
              ⟨f, hf⟩ | hbare
            · exact .inl ⟨f, hf, fun _ h => by cases h⟩
            · exact .inr hbare
          · right
            have hfd : (setUp cap mode readOnly prefetch).file.fd = none :=
              detected_closed file compression hcap hdetected
            rw [parse_closed hfd]
            exact setUp_bare _ _ _ _
  | some g =>
      by_cases hmode : settled compression g.content = .compressed
      · rw [construct_gzip host z file compression readOnly prefetch hcap hmode]
        rcases fromCopy_parsed_or_bare host (GzFileT.ofFd z (opened compression g file)).1 os readOnly
          prefetch with ⟨f, hf⟩ | hbare
        · refine .inl ⟨f, hf, ?_⟩
          intro g' hg' hplain
          cases hg'
          exact absurd hmode hplain
        · exact .inr hbare
      · rw [construct_plain host z file compression readOnly prefetch hcap hmode]
        refine .inl ⟨g, ⟨_, opened_unread compression _ g file readOnly prefetch, rfl⟩, ?_⟩
        intro g' hg' _
        exact Option.some.inj hg'

end PcapT

end LibNokogiri.Pcap
