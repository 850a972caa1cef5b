import LibNokogiri.Foundation.Run
import LibNokogiri.Pcap.Construction

/-! # What `get_packet` returns

The second pass over the file reads whole packet headers. Its result depends
on the file, the variant and the offset of the index element, and on nothing
that an earlier call left behind.
-/

namespace LibNokogiri.Pcap

open ByteCodec Framing Internal Run

def pktHeaderOf (host : Order) (variant : PcapVariantT) (bs : Bytes) : PktHeaderT :=
  match variant with
  | .modified => .modified (Pod.ofBytes host bs)
  | _ => .standard (Pod.ofBytes host bs)

def pktHeaderIn (host : Order) (variant : PcapVariantT) (content : Bytes) (offset : Nat) :
    PktHeaderT :=
  pktHeaderOf host variant (slice content offset (packetHeaderSize variant))

/-- The packet stored at `offset`, if the file holds all of it. -/
def packetIn (host : Order) (variant : PcapVariantT) (content : Bytes) (offset : Nat) :
    Option PacketT :=
  let hdr := pktHeaderIn host variant content offset
  let start := offset + packetHeaderSize variant
  if start ≤ content.length ∧ start + hdr.capturedLen ≤ content.length then
    some ⟨slice content start hdr.capturedLen, hdr⟩
  else none

namespace PcapT

variable {host : Order} {f : RegularFile} {pos : Nat}

section Header

variable {file : Fd} {variant : PcapVariantT}

theorem readPacketHeader_of_le (host : Order) (hfd : file.fd = some ⟨f, pos⟩)
    (h : pos + packetHeaderSize variant ≤ f.size) :
    readPacketHeader host variant file =
      (some (pktHeaderIn host variant f.content pos),
        file.movedTo f (pos + packetHeaderSize variant)) := by
  unfold readPacketHeader
  split
  · have hread : file.read PacketHeaderModifiedT host =
        (some (Pod.ofBytes host (slice f.content pos 24)), file.movedTo f (pos + 24)) :=
      FdT.read_of_le hfd h
    rw [hread]
    rfl
  · rename_i hne
    have hsize : packetHeaderSize variant = 16 := by
      cases variant <;> first | rfl | exact absurd rfl hne
    have hof : ∀ bs, pktHeaderOf host variant bs = .standard (Pod.ofBytes host bs) := by
      intro bs
      cases variant <;> first | rfl | exact absurd rfl hne
    rw [hsize] at h
    have hread : file.read PacketHeaderT host =
        (some (Pod.ofBytes host (slice f.content pos 16)), file.movedTo f (pos + 16)) :=
      FdT.read_of_le hfd h
    rw [hread, hsize, pktHeaderIn, hof, hsize]
    rfl

theorem readPacketHeader_of_lt (host : Order) (hfd : file.fd = some ⟨f, pos⟩)
    (h : f.size < pos + packetHeaderSize variant) :
    (readPacketHeader host variant file).1 = none := by
  unfold readPacketHeader
  split
  · have hread : (file.read PacketHeaderModifiedT host).1 = none :=
      FdT.read_of_lt hfd (show 0 < 24 by decide) h
    simp [hread]
  · rename_i hne
    have hsize : packetHeaderSize variant = 16 := by
      cases variant <;> first | rfl | exact absurd rfl hne
    rw [hsize] at h
    have hread : (file.read PacketHeaderT host).1 = none :=
      FdT.read_of_lt hfd (show 0 < 16 by decide) h
    simp [hread]

theorem readPacketHeader_onFile (host : Order) (variant : PcapVariantT)
    (hfd : file.fd = some ⟨f, pos⟩) :
    (∃ pos', (readPacketHeader host variant file).2.fd = some ⟨f, pos'⟩) ∧
      (readPacketHeader host variant file).2.length = file.length := by
  unfold readPacketHeader
  split
  · exact FdT.read_onFile PacketHeaderModifiedT host hfd
  · exact FdT.read_onFile PacketHeaderT host hfd

theorem readPacketHeader_kept (host : Order) (variant : PcapVariantT) (file : Fd) :
    (readPacketHeader host variant file).2 =
      { file with
        fd := (readPacketHeader host variant file).2.fd
        eof := (readPacketHeader host variant file).2.eof } := by
  unfold readPacketHeader
  split
  · exact FdT.read_kept PacketHeaderModifiedT host file
  · exact FdT.read_kept PacketHeaderT host file

end Header

def cached (storage : PacketStorageT) (packet : Option PacketT) : PacketStorageT :=
  match packet with
  | none => storage
  | some pkt => storage.setPacket pkt

variable {self : PcapT} {storage : PacketStorageT}

theorem getStoredPacket_packet (host : Order) (hfd : self.file.fd = some ⟨f, pos⟩)
    (hoffset : storage.offset < offLimit) :
    (∃ pos', (self.getStoredPacket host storage).2.1.fd = some ⟨f, pos'⟩) ∧
      (self.getStoredPacket host storage).1 =
        packetIn host self.header.variant f.content storage.offset ∧
      (self.getStoredPacket host storage).2.2 =
        cached storage (packetIn host self.header.variant f.content storage.offset) := by
  have hptr : ptrdiffT (storage.offset : Int) = storage.offset := ptrdiffT_of_lt hoffset
  obtain ⟨hat, hplaced⟩ := FdT.seek_set_fd hfd hoffset
  unfold getStoredPacket
  rw [hptr]
  generalize self.file.seek storage.offset .set = sought at hat hplaced
  simp only [hat, ne_eq, not_true_eq_false, if_false]
  by_cases hheader : storage.offset + packetHeaderSize self.header.variant ≤ f.size
  · have hread := readPacketHeader_of_le host hplaced hheader
    have hmoved := FdT.movedTo_fd sought.2 f
      (storage.offset + packetHeaderSize self.header.variant)
    generalize hhdr : pktHeaderIn host self.header.variant f.content storage.offset = hdr at hread
    by_cases hbody : storage.offset + packetHeaderSize self.header.variant + hdr.capturedLen ≤ f.size
    · have hpacket : packetIn host self.header.variant f.content storage.offset =
          some ⟨slice f.content (storage.offset + packetHeaderSize self.header.variant)
            hdr.capturedLen, hdr⟩ := by
        simp only [packetIn, hhdr]
        exact if_pos ⟨hheader, hbody⟩
      rw [hread, hpacket]
      simp only [FdT.readExact_of_le hmoved hbody]
      exact ⟨⟨_, rfl⟩, trivial, rfl⟩
    · have hpacket : packetIn host self.header.variant f.content storage.offset = none := by
        simp only [packetIn, hhdr]
        exact if_neg fun h => hbody h.2
      have hnone := FdT.readExact_of_lt hmoved (by omega) (Nat.not_le.mp hbody)
      rw [hread, hpacket]
      simp only [hnone]
      exact ⟨(FdT.readExact_onFile hmoved hdr.capturedLen).1, trivial, rfl⟩
  · have hpacket : packetIn host self.header.variant f.content storage.offset = none :=
      if_neg fun h => hheader h.1
    have hnone := readPacketHeader_of_lt host hplaced (Nat.not_le.mp hheader)
    rw [hpacket]
    simp only [hnone]
    exact ⟨(readPacketHeader_onFile host self.header.variant hplaced).1, trivial, rfl⟩

theorem getStoredPacket_file (host : Order) (self : PcapT) (storage : PacketStorageT) :
    (self.getStoredPacket host storage).2.1 =
      { self.file with
        fd := (self.getStoredPacket host storage).2.1.fd
        eof := (self.getStoredPacket host storage).2.1.eof
        length := (self.file.seek (ptrdiffT storage.offset) .set).2.length } := by
  have hseek := FdT.seek_kept self.file (ptrdiffT storage.offset) .set
  unfold getStoredPacket
  dsimp only
  generalize self.file.seek (ptrdiffT storage.offset) .set = sought at hseek ⊢
  have hheader := readPacketHeader_kept host self.header.variant sought.2
  generalize readPacketHeader host self.header.variant sought.2 = header at hheader ⊢
  split
  · exact hseek
  · split
    · rw [hheader, hseek]
    · rename_i hdr _
      have hbody := FdT.readExact_kept header.2 hdr.capturedLen
      split
      · rw [hbody, hheader, hseek]
      · rw [hbody, hheader, hseek]

/-- Reading an element gives the packet at its offset, whatever was read before. -/
theorem getStoredPacket_eq (host : Order) (hfile : self.file.OnFile f)
    (hoffset : storage.offset < offLimit) :
    ∃ file : Fd, file.Measured f ∧
      self.getStoredPacket host storage =
        (packetIn host self.header.variant f.content storage.offset, file,
          cached storage (packetIn host self.header.variant f.content storage.offset)) := by
  obtain ⟨⟨pos, hfd⟩, hlen⟩ := hfile
  obtain ⟨hfd', hpacket, hstorage⟩ := getStoredPacket_packet host hfd hoffset
  have hlength := (FdT.seek_measured hfd hlen (ptrdiffT storage.offset) .set).2
  refine ⟨(self.getStoredPacket host storage).2.1, ⟨hfd', ?_⟩, ?_⟩
  · rw [getStoredPacket_file]
    exact hlength
  · exact Prod.ext hpacket (Prod.ext rfl hstorage)

theorem getStoredPacket_entry (host : Order) (self : PcapT) (storage : PacketStorageT) :
    (self.getStoredPacket host storage).2.2.entry = storage.entry := by
  unfold getStoredPacket
  dsimp only
  split
  · rfl
  · split
    · rfl
    · split <;> rfl

/-- Every offset of the index can be sought to. -/
def OffsetsBelow (packets : List PacketStorageT) : Prop :=
  ∀ storage ∈ packets, storage.offset < offLimit

theorem OffsetsBelow.of_entries {packets packets' : List PacketStorageT}
    (h : OffsetsBelow packets)
    (hentries : packets'.map PacketStorageT.entry = packets.map PacketStorageT.entry) :
    OffsetsBelow packets' := by
  have hmem : ∀ e ∈ packets.map PacketStorageT.entry, e.offset < offLimit :=
    List.forall_mem_map.mpr h
  rw [← hentries] at hmem
  exact List.forall_mem_map.mp hmem

theorem getStoredPacket_closed (host : Order) (hfd : self.file.fd = none)
    (hoffset : storage.offset < offLimit) : (self.getStoredPacket host storage).1 = none := by
  have hseek : (self.file.seek (ptrdiffT storage.offset) .set).1 = -1 := by
    simp only [FdT.seek, hfd]
  have hne : (-1 : Int) ≠ ptrdiffT storage.offset := by
    rw [ptrdiffT_of_lt hoffset]
    omega
  unfold getStoredPacket
  simp only [hseek, if_pos hne]

theorem getStoredPacket_content (host : Order) (self : PcapT) (storage : PacketStorageT) :
    (self.getStoredPacket host storage).2.1.content = self.file.content := by
  have hheader : ∀ variant (file : Fd),
      (readPacketHeader host variant file).2.content = file.content := by
    intro variant file
    unfold readPacketHeader
    split <;> exact FdT.read_content _ host file
  unfold getStoredPacket
  dsimp only
  split
  · exact FdT.seek_content _ _ _
  · split
    · rw [hheader, FdT.seek_content]
    · split <;> rw [FdT.readExact_content, hheader, FdT.seek_content]

/-- The packet that a read gives is the one in the bytes behind the wrapper. -/
theorem getStoredPacket_in (host : Order) (self : PcapT) (hoffset : storage.offset < offLimit) :
    (self.getStoredPacket host storage).1 =
      packetIn host self.header.variant self.file.content storage.offset := by
  cases hfd : self.file.fd with
  | none =>
      have hcontent : self.file.content = [] := by simp only [FdT.content, hfd]
      have hsize : 0 < packetHeaderSize self.header.variant := by
        unfold packetHeaderSize
        split <;> decide
      have hstart : ¬ storage.offset + packetHeaderSize self.header.variant ≤ 0 := by omega
      rw [getStoredPacket_closed host hfd hoffset, hcontent]
      exact (if_neg fun h => hstart h.1).symm
  | some g =>
      have hcontent : self.file.content = g.file.content := by simp only [FdT.content, hfd]
      rw [(getStoredPacket_packet host hfd hoffset).2.1, hcontent]

theorem packetAt_in (host : Order) (self : PcapT) (hoffsets : OffsetsBelow self.packets)
    (idx : Nat) :
    self.packetAt host idx = (self.packets.map PacketStorageT.entry)[idx]?.bind fun e =>
      packetIn host self.header.variant self.file.content e.offset := by
  rw [List.getElem?_map]
  unfold packetAt getPacket
  cases hget : self.packets[idx]? with
  | none =>
      split <;> rfl
  | some storage =>
      have hlt : idx < self.packets.length := (List.getElem?_eq_some_iff.mp hget).choose
      have hmem : storage ∈ self.packets := List.mem_of_getElem? hget
      rw [if_pos (Nat.le_of_lt hlt)]
      exact getStoredPacket_in host self (hoffsets storage hmem)

theorem packetAt_eq (host : Order) (hfile : self.file.OnFile f)
    (hoffsets : OffsetsBelow self.packets) (idx : Nat) :
    self.packetAt host idx = self.packets[idx]?.bind fun storage =>
      packetIn host self.header.variant f.content storage.offset := by
  rw [packetAt_in host self hoffsets, hfile.content, List.getElem?_map, Option.bind_map]
  rfl

/-! ## Successive calls -/

theorem getPacket_cases {idx : Nat} {packet : Option PacketT} {next : PcapT}
    (h : (self.getPacket host idx).outcome = some (packet, next)) :
    next = self ∨ ∃ storage, self.packets[idx]? = some storage ∧
      next = { self with
        file := (self.getStoredPacket host storage).2.1
        packets := self.packets.set idx (self.getStoredPacket host storage).2.2 } := by
  unfold getPacket at h
  split at h
  · split at h
    · cases h
    · rename_i storage hstorage
      cases h
      exact .inr ⟨storage, hstorage, rfl⟩
  · cases h
    exact .inl rfl

theorem entries_set {packets : List PacketStorageT} {idx : Nat} {storage storage' : PacketStorageT}
    (hget : packets[idx]? = some storage) (hentry : storage'.entry = storage.entry) :
    (packets.set idx storage').map PacketStorageT.entry = packets.map PacketStorageT.entry := by
  obtain ⟨hlt, hgetElem⟩ := List.getElem?_eq_some_iff.mp hget
  have hlt' : idx < (packets.map PacketStorageT.entry).length := by simpa using hlt
  have hsame : (packets.map PacketStorageT.entry)[idx] = storage.entry := by
    rw [List.getElem_map, hgetElem]
  rw [List.map_set, hentry, ← hsame, List.set_getElem_self hlt']

theorem getPacket_entries {idx : Nat} {packet : Option PacketT} {next : PcapT}
    (h : (self.getPacket host idx).outcome = some (packet, next)) :
    next.packets.map PacketStorageT.entry = self.packets.map PacketStorageT.entry := by
  rcases getPacket_cases h with rfl | ⟨storage, hstorage, rfl⟩
  · rfl
  · exact entries_set hstorage (getStoredPacket_entry host self storage)

def afterCalls (host : Order) (self : PcapT) (calls : List Nat) : Option PcapT :=
  perform (fun capture idx => (capture.getPacket host idx).outcome.map Prod.snd) self calls

/-- All that a call depends on is the same in the later capture. -/
structure SameAnswers (f : RegularFile) (origin later : PcapT) : Prop where
  onFile : later.file.OnFile f
  header : later.header = origin.header
  entries : later.packets.map PacketStorageT.entry = origin.packets.map PacketStorageT.entry

theorem SameAnswers.offsetsBelow {next : PcapT} (h : SameAnswers f self next)
    (hoffsets : OffsetsBelow self.packets) : OffsetsBelow next.packets :=
  hoffsets.of_entries h.entries

theorem SameAnswers.packetAt {next : PcapT} (h : SameAnswers f self next)
    (hfile : self.file.OnFile f) (hoffsets : OffsetsBelow self.packets) (idx : Nat) :
    next.packetAt host idx = self.packetAt host idx := by
  rw [packetAt_in host next (h.offsetsBelow hoffsets), packetAt_in host self hoffsets, h.header,
    h.entries, h.onFile.content, hfile.content]

theorem SameAnswers.getPacket {next last : PcapT} {idx : Nat} {packet : Option PacketT}
    (h : SameAnswers f self next) (hoffsets : OffsetsBelow self.packets)
    (hget : (next.getPacket host idx).outcome = some (packet, last)) : SameAnswers f self last := by
  have hentries := (getPacket_entries hget).trans h.entries
  rcases getPacket_cases hget with rfl | ⟨storage, hstorage, rfl⟩
  · exact h
  · have hoffset := h.offsetsBelow hoffsets storage (List.mem_of_getElem? hstorage)
    obtain ⟨file, hfile, heq⟩ := getStoredPacket_eq host h.onFile hoffset
    refine ⟨?_, h.header, hentries⟩
    rw [heq]
    exact hfile.onFile

theorem sameAnswers_of_afterCalls {calls : List Nat} {next : PcapT} (hfile : self.file.OnFile f)
    (hoffsets : OffsetsBelow self.packets) (hcalls : self.afterCalls host calls = some next) :
    SameAnswers f self next := by
  apply (Reachable.perform .start hcalls).invariant (I := SameAnswers f self)
  · exact ⟨hfile, rfl, rfl⟩
  · intro capture idx last hsame _ hstep
    cases hget : (capture.getPacket host idx).outcome with
    | none => simp [hget] at hstep
    | some r =>
        have hlast : r.2 = last := by simpa [hget] using hstep
        rw [← hlast]
        exact hsame.getPacket hoffsets hget

/-! ## Captures fresh from the parser -/

theorem indexOf_mem {content : Bytes} {e : Entry} (he : e ∈ (indexOf host content).1) :
    ∃ swapped variant, headed host content = some (swapped, variant) ∧ 24 ≤ e.offset ∧
      e.length = (recordFormat host variant).lengthAt content e.offset ∧
      e.offset + 12 ≤ content.length := by
  unfold indexOf at he
  split at he
  · rename_i swapped variant hheaded
    obtain ⟨hpos, hlength, hfits⟩ := Format.scan_mem he
    exact ⟨swapped, variant, hheaded, hpos, hlength, hfits⟩
  · cases he

section Reads

variable {capture : PcapT}

theorem Reads.entries (h : capture.Reads host f) :
    capture.packets.map PacketStorageT.entry = (indexOf host f.content).1 := by
  have hentry : ∀ e ∈ (indexOf host f.content).1,
      (PacketStorageT.entry ∘ stored) e = id e := by
    intro e he
    obtain ⟨_, variant, _, _, hlength, _⟩ := indexOf_mem he
    apply entry_stored
    rw [hlength]
    exact lengthAt_lt host variant f.content e.offset
  rw [h.packets, List.map_map, List.map_congr_left hentry, List.map_id]

theorem Reads.offsetsBelow (h : capture.Reads host f) : OffsetsBelow capture.packets := by
  intro storage hmem
  rw [h.packets] at hmem
  obtain ⟨e, he, rfl⟩ := List.mem_map.mp hmem
  obtain ⟨_, _, _, _, _, hend⟩ := indexOf_mem he
  have hsize := f.size_lt
  exact Nat.lt_of_le_of_lt (by omega : e.offset ≤ f.content.length) hsize

theorem Reads.packetAt_eq (h : capture.Reads host f) {swapped : Bool} {variant : PcapVariantT}
    (hheaded : headed host f.content = some (swapped, variant)) (idx : Nat) :
    capture.packetAt host idx =
      (indexOf host f.content).1[idx]?.bind fun e => packetIn host variant f.content e.offset := by
  have hvariant : capture.header.variant = variant := by
    rw [h.header swapped variant hheaded]
    rfl
  rw [PcapT.packetAt_eq host h.onFile h.offsetsBelow, hvariant, h.packets, List.getElem?_map,
    Option.bind_map]
  rfl

/-- Whatever packets have been read before, a call returns the same packet. -/
theorem Reads.packetAt_afterCalls {calls : List Nat} {next : PcapT} (h : capture.Reads host f)
    (hcalls : capture.afterCalls host calls = some next) (idx : Nat) :
    next.packetAt host idx = capture.packetAt host idx :=
  (sameAnswers_of_afterCalls h.onFile h.offsetsBelow hcalls).packetAt h.onFile h.offsetsBelow idx

end Reads

end PcapT

end LibNokogiri.Pcap
