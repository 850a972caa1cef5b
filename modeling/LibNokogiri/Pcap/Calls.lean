import LibNokogiri.Pcap.RoundTrip

/-! # Single calls and runs of calls

A read of an index element, by `get_packet` or through an iterator, fails
exactly when the file does not hold the packet, and then changes nothing in
the index. Over runs of reads, each one answers from the file and the offset
of its own entry, and touches nothing else.
-/

namespace LibNokogiri.Pcap

open ByteCodec Framing Internal Run

namespace PcapT

variable {host : Order} {self : PcapT} {f : RegularFile} {pos idx : Nat}
  {storage : PacketStorageT}

/-! ## When a read fails -/

def announcedLen (order : Order) (content : Bytes) (offset : Nat) : Nat :=
  (load order (slice content (offset + 8) 4) : UInt32).toNat

def PacketInside (order : Order) (variant : PcapVariantT) (content : Bytes) (offset : Nat) : Prop :=
  offset + packetHeaderSize variant ≤ content.length ∧
    offset + packetHeaderSize variant + announcedLen order content offset ≤ content.length

theorem capturedLen_pktHeaderIn (host : Order) (variant : PcapVariantT) (content : Bytes)
    (offset : Nat) :
    (pktHeaderIn host variant content offset).capturedLen = announcedLen host content offset := by
  have hfield : ∀ count, 12 ≤ count →
      slice (slice content offset count) 8 4 = slice content (offset + 8) 4 :=
    fun count h => slice_slice content offset h
  have hstandard : ∀ bs : Bytes, (Pod.ofBytes host bs : PacketHeaderT).capturedLen =
      load host (slice bs 8 4) := fun _ => rfl
  have hmodified : ∀ bs : Bytes, (Pod.ofBytes host bs : PacketHeaderModifiedT).baseHeader =
      Pod.ofBytes host (slice bs 0 16) := fun _ => rfl
  have hbase : slice (slice content offset 24) 0 16 = slice content offset 16 :=
    slice_slice content offset (by decide)
  unfold announcedLen
  cases variant <;>
    simp only [pktHeaderIn, pktHeaderOf, packetHeaderSize, PktHeaderT.capturedLen, hmodified, hbase,
      hstandard, hfield 16 (by decide)]

theorem packetIn_eq_none_iff (host : Order) (variant : PcapVariantT) (content : Bytes)
    (offset : Nat) :
    packetIn host variant content offset = none ↔ ¬ PacketInside host variant content offset := by
  simp only [packetIn, PacketInside, capturedLen_pktHeaderIn]
  split
  · rename_i hinside
    exact iff_of_false (Option.some_ne_none _) (not_not_intro hinside)
  · rename_i houtside
    exact iff_of_true rfl houtside

theorem getPacket_eq_accessor (h : idx < self.packets.length) :
    (self.getPacket host idx).outcome = self.accessor host idx := by
  unfold getPacket accessor
  rw [if_pos (Nat.le_of_lt h)]
  cases self.packets[idx]? <;> rfl

theorem accessor_eq (host : Order) (hget : self.packets[idx]? = some storage) :
    self.accessor host idx =
      some ((self.getStoredPacket host storage).1, { self with
        file := (self.getStoredPacket host storage).2.1
        packets := self.packets.set idx (self.getStoredPacket host storage).2.2 }) := by
  simp only [accessor, hget]

/-- Whatever the file holds by now, a read fails exactly when the packet header
or the body it announces is not wholly in the file, and then the index is as it
was. -/
theorem getPacket_none_iff (hfd : self.file.fd = some ⟨f, pos⟩)
    (hnative : self.needsSwapping = false) (hget : self.packets[idx]? = some storage)
    (hoffset : storage.offset < 2 ^ 62) :
    ∃ packet next,
      (self.getPacket host idx).outcome = some (packet, next) ∧
      self.accessor host idx = some (packet, next) ∧
      (packet = none ↔ ¬ PacketInside (host.flipIf self.needsSwapping) self.header.variant
        f.content storage.offset) ∧
      (packet = none → next.packets = self.packets) := by
  have hlimit : storage.offset < offLimit := Nat.lt_trans hoffset (by decide)
  obtain ⟨hlt, hgetElem⟩ := List.getElem?_eq_some_iff.mp hget
  obtain ⟨_, hpacket, hstorage⟩ := getStoredPacket_packet host hfd hlimit
  have hcall := accessor_eq host hget
  refine ⟨_, _, (getPacket_eq_accessor hlt).trans hcall, hcall, ?_, ?_⟩
  · rw [hpacket, hnative]
    exact packetIn_eq_none_iff host self.header.variant f.content storage.offset
  · intro hnone
    rw [hpacket] at hnone
    rw [hstorage, hnone]
    simp only [cached, ← hgetElem, List.set_getElem_self]

def shortenedSample : PcapT :=
  { construct .little storedZlib (opening (sampleFile .little)) "sample.pcap" .autodetect true
      false with
    file :=
      { fd := some ⟨(sampleFile .little).cut 58, 9⟩, eof := true, length := 59
        filename := "sample.pcap" } }

theorem getPacket_none_sample :
    ∃ packet next,
      (shortenedSample.getPacket .little 1).outcome = some (packet, next) ∧
      shortenedSample.accessor .little 1 = some (packet, next) ∧
      (packet = none ↔ ¬ PacketInside (Order.little.flipIf shortenedSample.needsSwapping)
        shortenedSample.header.variant ((sampleFile .little).cut 58).content 40) ∧
      (packet = none → next.packets = shortenedSample.packets) := by
  have hget : shortenedSample.packets[1]? = some { len := 3, offset := 40 } := by decide +kernel
  exact getPacket_none_iff rfl (by decide +kernel) hget (by decide)

/-! ## Iterators over the index -/

def Walks (self : PcapT) (it : BiIterator) : Prop := it.first = 0 ∧ it.last = self.packets.length

theorem walks_begin (self : PcapT) : self.Walks self.begin := ⟨rfl, rfl⟩

theorem walks_end (self : PcapT) : self.Walks self.end := ⟨rfl, rfl⟩

theorem Walks.increment {it : BiIterator} (h : self.Walks it) : self.Walks it.increment := by
  rwa [Walks, it.increment_range.1, it.increment_range.2]

theorem Walks.decrement {it : BiIterator} (h : self.Walks it) : self.Walks it.decrement := by
  rwa [Walks, it.decrement_range.1, it.decrement_range.2]

/-! ## Runs of reads -/

inductive Call
  | getPacket (idx : Nat)
  | dereference (it : BiIterator)
deriving DecidableEq

namespace Call

def outcome (host : Order) (self : PcapT) : Call → Option (Option PacketT × PcapT)
  | .getPacket idx => (self.getPacket host idx).outcome
  | .dereference it => it.deref (self.accessor host)

def entry : Call → Nat
  | .getPacket idx => idx
  | .dereference it => it.current

/-- The index is below the packet count; the iterator refers to an element. -/
def Proper (self : PcapT) : Call → Prop
  | .getPacket idx => idx < self.packetCount
  | .dereference it => self.Walks it ∧ it.current ≠ it.last

def step (host : Order) (self : PcapT) (call : Call) : Option PcapT :=
  (call.outcome host self).map Prod.snd

theorem Proper.entry_lt {call : Call} (h : call.Proper self) : call.entry < self.packets.length := by
  cases call with
  | getPacket idx => exact h
  | dereference it =>
      obtain ⟨⟨_, hlast⟩, hne⟩ := h
      rw [← hlast]
      exact Nat.lt_of_le_of_ne it.le_last hne

theorem Proper.outcome {call : Call} (h : call.Proper self) :
    call.outcome host self = self.accessor host call.entry := by
  cases call with
  | getPacket idx => exact getPacket_eq_accessor h
  | dereference it => rfl

theorem Proper.of_length {call : Call} {other : PcapT} (h : call.Proper self)
    (hlength : other.packets.length = self.packets.length) : call.Proper other := by
  cases call with
  | getPacket idx =>
      have hlt : idx < self.packets.length := h
      rwa [← hlength] at hlt
  | dereference it => rwa [Proper, Walks, hlength]

end Call

/-- All that a read of entry `i` may change: the file position, the end-of-file
flag and the packet cached in the entry. -/
structure TouchesOnly (i : Nat) (before after : PcapT) : Prop where
  file : after.file = { before.file with fd := after.file.fd, eof := after.file.eof }
  content : after.file.content = before.file.content
  rest : after = { before with file := after.file, packets := after.packets }
  entries : after.packets.map PacketStorageT.entry = before.packets.map PacketStorageT.entry
  others : ∀ j, j ≠ i → after.packets[j]? = before.packets[j]?

/-- What a read of the entry at `offset` gives, as a function of the file. -/
def answer (host : Order) (content : Bytes) (offset : Nat) : Option PacketT :=
  (headed host content).bind fun kind => packetIn host kind.2 content offset

theorem Reads.answer {capture : PcapT} (h : capture.Reads host f) (hpackets : capture.packets ≠ [])
    (offset : Nat) :
    packetIn host capture.header.variant f.content offset =
      PcapT.answer host capture.file.content offset := by
  rw [h.onFile.content, PcapT.answer]
  cases hheaded : headed host f.content with
  | none =>
      have hnil : (indexOf host f.content).1 = [] := by simp only [indexOf, hheaded]
      rw [h.packets, hnil] at hpackets
      exact absurd rfl hpackets
  | some kind =>
      rw [h.header kind.1 kind.2 hheaded]
      rfl

section Read

variable (hfile : self.file.Measured f) (hoffsets : OffsetsBelow self.packets)

include hfile hoffsets

theorem touchesOnly_accessor (host : Order) (hget : self.packets[idx]? = some storage) :
    let read := self.getStoredPacket host storage
    read.2.1.Measured f ∧
      TouchesOnly idx self
        { self with file := read.2.1, packets := self.packets.set idx read.2.2 } := by
  intro read
  have hoffset := hoffsets storage (List.mem_of_getElem? hget)
  obtain ⟨file, hmeasured, hstored⟩ := getStoredPacket_eq host hfile.onFile hoffset
  have hread : read.2.1 = file := congrArg (fun r => r.2.1) hstored
  rw [← hread] at hmeasured
  have hlength := hmeasured.2.trans hfile.2.symm
  refine ⟨hmeasured, ?_, ?_, rfl, ?_, ?_⟩
  · have hkept : read.2.1 = { self.file with
        fd := read.2.1.fd
        eof := read.2.1.eof
        length := (self.file.seek (ptrdiffT storage.offset) .set).2.length } :=
      getStoredPacket_file host self storage
    have hcached : (self.file.seek (ptrdiffT storage.offset) .set).2.length = self.file.length := by
      rw [← hlength, hkept]
    rw [hcached] at hkept
    exact hkept
  · rw [hmeasured.onFile.content, hfile.onFile.content]
  · exact entries_set hget (getStoredPacket_entry host self storage)
  · intro j hj
    exact List.getElem?_set_ne (Ne.symm hj)

/-- One read, whatever the position and the end-of-file flag are. -/
theorem call_outcome (host : Order) {call : Call} (hproper : call.Proper self) :
    ∃ storage next, self.packets[call.entry]? = some storage ∧
      call.outcome host self =
        some (packetIn host self.header.variant f.content storage.offset, next) ∧
      next.file.Measured f ∧ TouchesOnly call.entry self next := by
  obtain ⟨storage, hget⟩ : ∃ storage, self.packets[call.entry]? = some storage :=
    ⟨_, List.getElem?_eq_getElem hproper.entry_lt⟩
  have hoffset := hoffsets storage (List.mem_of_getElem? hget)
  obtain ⟨pos, hfd⟩ := hfile.1
  obtain ⟨_, hpacket, _⟩ := getStoredPacket_packet host hfd hoffset
  obtain ⟨hmeasured, htouches⟩ := touchesOnly_accessor hfile hoffsets host hget
  refine ⟨storage, _, hget, ?_, hmeasured, htouches⟩
  rw [hproper.outcome, accessor_eq host hget, hpacket]

/-- A run of reads keeps all that later reads depend on. -/
theorem sameAnswers_of_run {later : PcapT}
    (h : Reaches (Call.step host) (fun capture call => call.Proper capture) self later) :
    SameAnswers f self later ∧ later.file.Measured f := by
  apply h.invariant (I := fun capture => SameAnswers f self capture ∧ capture.file.Measured f)
  · exact ⟨⟨hfile.onFile, rfl, rfl⟩, hfile⟩
  · rintro capture call last ⟨hsame, hmeasured⟩ hproper htaken
    obtain ⟨_, next, _, houtcome, hnext, htouches⟩ :=
      call_outcome hmeasured (hsame.offsetsBelow hoffsets) host hproper
    have hlast : next = last := by simpa [Call.step, houtcome] using htaken
    rw [← hlast]
    have hheader : next.header = capture.header := by rw [htouches.rest]
    exact ⟨⟨hnext.onFile, hheader.trans hsame.header, htouches.entries.trans hsame.entries⟩, hnext⟩

end Read

theorem no_call_of_run (hpackets : self.packets = []) {later : PcapT}
    (h : Reaches (Call.step host) (fun capture call => call.Proper capture) self later)
    (call : Call) : ¬ call.Proper later := by
  have hnone : ∀ (capture : PcapT) (call : Call), capture.packets = [] → ¬ call.Proper capture := by
    intro capture call hnil hproper
    have hlt := hproper.entry_lt
    simp [hnil] at hlt
  apply hnone
  apply h.invariant (I := fun capture => capture.packets = []) hpackets
  intro capture call _ hnil hproper
  exact absurd hproper (hnone capture call hnil)

/-- In every run of reads of a constructed capture, each read gives what it
would give as the first one, from the bytes of the file and the offset of its
entry alone, and touches nothing but its own entry. -/
theorem reads_independent (host : Order) (z : Zlib) (os : Opens) (file : String)
    (compression : CaptureCompressionT) (readOnly prefetch : Bool) {later : PcapT}
    (hrun : Reaches (Call.step host) (fun capture call => call.Proper capture)
      (construct host z os file compression readOnly prefetch) later)
    {call : Call} (hproper : call.Proper later) :
    let capture := construct host z os file compression readOnly prefetch
    ∃ packet next first storage,
      call.outcome host later = some (packet, next) ∧
      call.outcome host capture = some (packet, first) ∧
      capture.packets[call.entry]? = some storage ∧
      packet = answer host capture.file.content storage.offset ∧
      TouchesOnly call.entry later next := by
  intro capture
  rcases construct_cases host z os file compression readOnly prefetch with
    ⟨f, hparsed, _⟩ | hbare
  · have hreads := hparsed.reads
    have hpackets : capture.packets ≠ [] := fun hnil => no_call_of_run hnil hrun call hproper
    have hmeasured := hparsed.measured hpackets
    obtain ⟨hsame, hlater⟩ := sameAnswers_of_run hmeasured hreads.offsetsBelow hrun
    have hlength : capture.packets.length = later.packets.length := by
      have hentries := congrArg List.length hsame.entries
      simpa only [List.length_map] using hentries.symm
    obtain ⟨storage, first, hget, hfirst, _, _⟩ :=
      call_outcome hmeasured hreads.offsetsBelow host (hproper.of_length hlength)
    obtain ⟨storage', next, hget', hnext, _, htouches⟩ :=
      call_outcome hlater (hsame.offsetsBelow hreads.offsetsBelow) host hproper
    have hoffset : storage'.offset = storage.offset := by
      have hentries := congrArg (fun entries => entries[call.entry]?) hsame.entries
      simp only [List.getElem?_map, hget, hget', Option.map_some, Option.some.injEq] at hentries
      exact congrArg Entry.offset hentries
    rw [hsame.header, hoffset] at hnext
    exact ⟨_, next, first, storage, hnext, hfirst, hget, hreads.answer hpackets storage.offset,
      htouches⟩
  · exact absurd hproper (no_call_of_run hbare.packets hrun call)

def readSample : PcapT :=
  (Call.step .little (construct .little storedZlib (opening (sampleFile .little)) "sample.pcap"
    .autodetect true false) (.getPacket 1)).get (by decide +kernel)

theorem readSample_run :
    Reaches (Call.step .little) (fun capture call => call.Proper capture)
      (construct .little storedZlib (opening (sampleFile .little)) "sample.pcap" .autodetect true
        false) readSample := by
  have hproper : 1 < (construct .little storedZlib (opening (sampleFile .little)) "sample.pcap"
      .autodetect true false).packetCount := by
    decide +kernel
  exact .next (a := .getPacket 1) .start hproper (Option.some_get _).symm

theorem reads_independent_sample :
    let capture := construct .little storedZlib (opening (sampleFile .little)) "sample.pcap"
      .autodetect true false
    let call := Call.dereference readSample.begin
    ∃ packet next first storage,
      call.outcome .little readSample = some (packet, next) ∧
      call.outcome .little capture = some (packet, first) ∧
      capture.packets[call.entry]? = some storage ∧
      packet = answer .little capture.file.content storage.offset ∧
      TouchesOnly call.entry readSample next := by
  have hne : readSample.begin.current ≠ readSample.begin.last := by decide +kernel
  have hproper : (Call.dereference readSample.begin).Proper readSample :=
    ⟨walks_begin readSample, hne⟩
  exact reads_independent .little storedZlib (opening (sampleFile .little)) "sample.pcap"
    .autodetect true false readSample_run hproper

end PcapT

end LibNokogiri.Pcap
