import LibNokogiri.Pcap.RoundTrip

/-! # Captures in the other byte order

`read_header` notes that a file needs swapping and swaps the file header. The
indexing loop and `get_packet` never look at that note: they come out right on
the records whose fields read the same in either order, and only on those.
-/

namespace LibNokogiri.Pcap

open ByteCodec Framing Internal PcapT

/-! ## The index -/

section Index

variable (host : Order) (z : Zlib) (os : Opens) (file : String)
  (compression : CaptureCompressionT) (readOnly prefetch : Bool) (c : CaptureValue)
  (native swapped : RegularFile)

/-- Two captures that differ in `needs_swapping()` only. -/
def SameCapture (a b : PcapT) : Prop :=
  a.valid = true ∧ b.valid = true ∧ a.header = b.header ∧ a.packetCount = b.packetCount ∧
    a.packets.map PacketStorageT.entry = b.packets.map PacketStorageT.entry ∧
    a.needsSwapping = false ∧ b.needsSwapping = true

/-- The capture written in either byte order is indexed alike exactly when no
captured length depends on the order it is read in. -/
theorem sameCapture_iff (hplain : compression ≠ .compressed) (hrecords : c.records ≠ [])
    (hnative : native.content = c.bytes host) (hswapped : swapped.content = c.bytes host.flip) :
    SameCapture
        (construct host z { os with capture := some native } file compression readOnly prefetch)
        (construct host z { os with capture := some swapped } file compression readOnly
          prefetch) ↔
      ∀ r ∈ c.records, bswap r.header.baseHeader.capturedLen = r.header.baseHeader.capturedLen := by
  obtain ⟨hreads, hheaded, hheader⟩ := construct_headed host z { os with capture := some native }
    native file compression readOnly prefetch false c.header _ rfl hplain hnative
  obtain ⟨hreads', hheaded', hheader'⟩ := construct_headed host z
    { os with capture := some swapped } swapped file compression readOnly prefetch true c.header _
    rfl hplain hswapped
  have hindex := indexOf_capture host native c false hnative hrecords fun _ _ => rfl
  constructor
  · rintro ⟨_, hvalid', _, _, hentries, _, _⟩
    have hscan : (recordFormat host c.header.variant).scan swapped.content 24 =
        (c.index, true) := by
      rw [hreads.entries, hreads'.entries, hindex] at hentries
      rw [hreads'.valid] at hvalid'
      rw [← indexOf_headed hheaded']
      exact Prod.ext hentries.symm hvalid'
    have hacc : ((recordFormat host c.header.variant).scan swapped.content 24).2 = true := by
      rw [hscan]
    have htiles := (Format.tiles_of_scan hacc).1
    rw [hscan, hswapped] at htiles
    exact (c.tiles_iff host true).mp htiles
  · intro hsymmetric
    have hindex' := indexOf_capture host swapped c true hswapped hrecords hsymmetric
    have hpackets := hreads.packets
    rw [hindex, ← hindex', ← hreads'.packets] at hpackets
    refine ⟨?_, ?_, ?_, ?_, ?_, ?_, ?_⟩
    · rw [hreads.valid, hindex]
    · rw [hreads'.valid, hindex']
    · rw [hreads.header false _ hheaded, hreads'.header true _ hheaded', hheader, hheader']
    · rw [packetCount, packetCount, hpackets]
    · rw [hpackets]
    · rw [hreads.needsSwapping, swappedFile_eq (headed_some hheaded).2]
    · rw [hreads'.needsSwapping, swappedFile_eq (headed_some hheaded').2]

end Index

theorem sameCapture_sample :
    SameCapture
        (construct .little storedZlib (opening (sampleFile .little)) "sample.pcap" .autodetect true
          false)
        (construct .little storedZlib (opening (sampleFile .big)) "sample.pcap" .autodetect true
          false) ↔
      ∀ r ∈ sampleCapture.records,
        bswap r.header.baseHeader.capturedLen = r.header.baseHeader.capturedLen :=
  sameCapture_iff .little storedZlib (opening (sampleFile .little)) "sample.pcap" .autodetect true
    false sampleCapture (sampleFile .little) (sampleFile .big) (by decide) (by decide) rfl rfl

theorem sameCapture_fails :
    ¬ SameCapture
        (construct .little storedZlib (opening (sampleFile .little)) "sample.pcap" .autodetect true
          false)
        (construct .little storedZlib (opening (sampleFile .big)) "sample.pcap" .autodetect true
          false) := by
  rintro ⟨_, hvalid, _⟩
  revert hvalid
  decide +kernel

/-! ## The packets -/

def PacketHeaderT.Symmetric (h : PacketHeaderT) : Prop :=
  bswap h.timestamp = h.timestamp ∧ bswap h.useconds = h.useconds ∧
    bswap h.capturedLen = h.capturedLen ∧ bswap h.actualLen = h.actualLen

def PacketHeaderModifiedT.Symmetric (h : PacketHeaderModifiedT) : Prop :=
  h.baseHeader.Symmetric ∧ bswap h.interfaceIndex = h.interfaceIndex ∧
    bswap h.protocol = h.protocol

def Record.Symmetric (variant : PcapVariantT) (r : Record) : Prop :=
  match variant with
  | .modified => r.header.Symmetric
  | _ => r.header.baseHeader.Symmetric

theorem PacketHeaderT.swapIf_eq_iff (h : PacketHeaderT) : h.swapIf true = h ↔ h.Symmetric := by
  cases h
  simp [PacketHeaderT.swapIf, PacketHeaderT.Symmetric, ByteCodec.swapIf]

theorem PacketHeaderModifiedT.swapIf_eq_iff (h : PacketHeaderModifiedT) :
    h.swapIf true = h ↔ h.Symmetric := by
  have hbase := h.baseHeader.swapIf_eq_iff
  cases h
  simp only [PacketHeaderModifiedT.Symmetric, ← hbase]
  simp [PacketHeaderModifiedT.swapIf, ByteCodec.swapIf]

theorem Record.seenHeader_eq_iff (variant : PcapVariantT) (r : Record) :
    r.seenHeader true variant = r.pktHeader variant ↔ r.Symmetric variant := by
  cases variant <;>
    simp only [Record.seenHeader, Record.pktHeader, Record.Symmetric, PktHeaderT.modified.injEq,
      PktHeaderT.standard.injEq, PacketHeaderT.swapIf_eq_iff, PacketHeaderModifiedT.swapIf_eq_iff]

theorem Record.Symmetric.capturedLen {variant : PcapVariantT} {r : Record}
    (h : r.Symmetric variant) :
    bswap r.header.baseHeader.capturedLen = r.header.baseHeader.capturedLen := by
  cases variant <;> first | exact h.1.2.2.1 | exact h.2.2.1

section Packets

variable (host : Order) (self : PcapT) (storage : PacketStorageT) (r : Record)

def Decodes : Prop :=
  (self.getStoredPacket host storage).1 = some ⟨r.body, r.pktHeader self.header.variant⟩

instance : Decidable (Decodes host self storage r) := inferInstanceAs (Decidable (_ = _))

/-- On a record stored in the other byte order, `get_packet` gives back what was
written exactly when no field of the packet header depends on the order. -/
theorem decodes_iff {f : RegularFile} (before after : Bytes) (hfile : self.file.OnFile f)
    (hrecord : f.content = r.placed host.flip self.header.variant before after)
    (hoffset : storage.offset = before.length) :
    Decodes host self storage r ↔ r.Symmetric self.header.variant := by
  have hlt : storage.offset < offLimit := by
    have hle : before.length ≤ f.content.length := by
      rw [hrecord, Record.placed, List.length_append]
      exact Nat.le_add_right _ _
    rw [hoffset]
    exact Nat.lt_of_le_of_lt hle f.size_lt
  obtain ⟨file, _, hget⟩ := getStoredPacket_eq host hfile hlt
  have hplaced := packetIn_placed host true self.header.variant r before after
  rw [Order.flipIf_true, ← hrecord, ← hoffset] at hplaced
  rw [Decodes, hget]
  dsimp only
  rw [hplaced, ← Record.seenHeader_eq_iff]
  constructor
  · intro h
    split at h
    · injection h with h
      injection h
    · cases h
  · intro hseen
    have hlen := ((Record.seenHeader_eq_iff _ _).mp hseen).capturedLen
    have hbody : (swapIf true r.header.baseHeader.capturedLen).toNat = r.body.length := by
      rw [swapIf, if_pos rfl, hlen]
      exact r.body_length.symm
    rw [hbody, if_pos (by simp), List.take_left, hseen]

theorem seenHeader_isComplete (swapped : Bool) (variant : PcapVariantT) (data : Bytes) :
    PacketT.isComplete ⟨data, r.seenHeader swapped variant⟩ =
      r.header.baseHeader.fullPacket := by
  have hbase : (r.header.baseHeader.swapIf swapped).fullPacket = r.header.baseHeader.fullPacket := by
    rw [Bool.eq_iff_iff, PacketHeaderT.fullPacket, PacketHeaderT.fullPacket, beq_iff_eq, beq_iff_eq]
    exact (swapIf_eq_iff swapped).trans (by rw [PacketHeaderT.swapIf, swapIf_swapIf])
  cases variant <;> exact hbase

/-- In whichever byte order a record is stored, the packet that `get_packet`
gives says whether all of it was captured: the two lengths may both come back
reversed, but they are equal in both orders or in neither. -/
theorem isComplete_iff {f : RegularFile} (swapped : Bool) (before after : Bytes)
    (hfile : self.file.OnFile f)
    (hrecord : f.content = r.placed (host.flipIf swapped) self.header.variant before after)
    (hoffset : storage.offset = before.length) {packet : PacketT}
    (hget : (self.getStoredPacket host storage).1 = some packet) :
    packet.isComplete = true ↔
      r.header.baseHeader.actualLen = r.header.baseHeader.capturedLen := by
  have hlt : storage.offset < offLimit := by
    have hle : before.length ≤ f.content.length := by
      rw [hrecord, Record.placed, List.length_append]
      exact Nat.le_add_right _ _
    rw [hoffset]
    exact Nat.lt_of_le_of_lt hle f.size_lt
  obtain ⟨file, _, hpacket⟩ := getStoredPacket_eq host hfile hlt
  rw [hpacket] at hget
  dsimp only at hget
  rw [hrecord, hoffset, packetIn_placed] at hget
  split at hget
  · cases hget
    rw [seenHeader_isComplete, PacketHeaderT.fullPacket, beq_iff_eq]
  · cases hget

end Packets

def swappedSample : PcapT :=
  construct .little storedZlib (opening (sampleFile .big)) "sample.pcap" .autodetect true false

theorem swappedSample_onFile : swappedSample.file.OnFile (sampleFile .big) :=
  (construct_headed .little storedZlib (opening (sampleFile .big)) (sampleFile .big) "sample.pcap"
    .autodetect true false true sampleCapture.header _ rfl (by decide) rfl).1.onFile

theorem decodes_sample :
    Decodes .little swappedSample { len := 0, offset := 24 } sampleCapture.records[0] ↔
      sampleCapture.records[0].Symmetric swappedSample.header.variant :=
  decodes_iff .little swappedSample { len := 0, offset := 24 } sampleCapture.records[0]
    (sampleCapture.header.bytes .big)
    (sampleCapture.records[1].headerBytes .big .standard ++ sampleCapture.records[1].body)
    swappedSample_onFile (by decide +kernel) (by decide)

theorem isComplete_sample :
    PacketT.isComplete ⟨[], sampleCapture.records[0].seenHeader true .standard⟩ = true ↔
      sampleCapture.records[0].header.baseHeader.actualLen =
        sampleCapture.records[0].header.baseHeader.capturedLen :=
  isComplete_iff .little swappedSample { len := 0, offset := 24 } sampleCapture.records[0] true
    (sampleCapture.header.bytes .big)
    (sampleCapture.records[1].headerBytes .big .standard ++ sampleCapture.records[1].body)
    swappedSample_onFile (by decide +kernel) (by decide) (by decide +kernel)

/-- The timestamp 100 of the first record is returned as 100 * 2^24. -/
theorem decodes_fails :
    swappedSample.needsSwapping = true ∧
      swappedSample.packets[0]? = some { len := 0, offset := 24 } ∧
      (sampleFile .big).content =
        sampleCapture.records[0].placed .big swappedSample.header.variant
          (sampleCapture.header.bytes .big)
          (sampleCapture.records[1].headerBytes .big .standard ++ sampleCapture.records[1].body) ∧
      ¬ Decodes .little swappedSample { len := 0, offset := 24 } sampleCapture.records[0] := by
  decide +kernel

end LibNokogiri.Pcap
