import LibNokogiri.Pcap.RoundTrip

/-! # The cost of indexing

Every round of the indexing loop that finds a length field takes at least one
packet header off the distance to the end of the file, so the file bounds the
number of rounds and of entries, whatever the length fields say. The sums that
the rounds compute stay far inside 64 bits.
-/

namespace LibNokogiri.Pcap

open ByteCodec Framing Loop Internal

namespace PcapT

def Spaced (variant : PcapVariantT) (packets : List PacketStorageT) : Prop :=
  packets.Pairwise fun a b => a.offset + packetHeaderSize variant ≤ b.offset

/-- The sums that a round of `ingest_packets` computes are in the range of
`off_t`: the position behind the hop to the length field, and the one behind the
record. -/
def RoundInRange (host : Order) (self : PcapT) : Prop :=
  let prevPos := self.file.tell
  let lengthField := (self.file.seek (ptrdiffT pktLenOffset) .cur).2.read UInt32 host
  0 ≤ prevPos ∧ pktLenOffset + prevPos < offLimit ∧
    ∀ size : UInt32, lengthField.1 = some size →
      0 ≤ lengthField.2.tell ∧
        ((size.toNat + getPacketBodyOffset self.header.variant : Nat) : Int) +
          lengthField.2.tell < offLimit

/-- The state at the top of a round: so many entries take so many bytes in
front of the position. -/
structure Indexing (f : RegularFile) (variant : PcapVariantT) (capture : PcapT) : Prop where
  header : capture.header.variant = variant
  place : ∃ pos, capture.file.fd = some ⟨f, pos⟩ ∧ 24 + 16 * capture.packets.length ≤ pos ∧
    pos < f.size + 2 ^ 33 ∧ ∀ e ∈ capture.packets, e.offset + packetHeaderSize variant ≤ pos
  count : capture.packets.length ≤ (f.size - 20) / 16
  spaced : Spaced variant capture.packets

variable {host : Order} {f : RegularFile} {variant : PcapVariantT} {self : PcapT}

/-! ## One round -/

def roundsLeft (self : PcapT) : Nat := (self.remaining + 4) / 16

theorem ingestPacket_roundsLeft (host : Order) (self next : PcapT)
    (h : ingestPacket host self = .more next) : next.roundsLeft < self.roundsLeft := by
  rcases ingestPacket_cases host self with
    ⟨_, _, hstop⟩ | ⟨f, pos, size, file, hfd, hle, hstop | ⟨hmore, hfd'⟩⟩
  · rw [hstop] at h
    cases h
  · rw [hstop] at h
    cases h
  · rw [hmore] at h
    cases h
    have hheader := packetHeaderSize_eq self.header.variant
    have hsize := le_packetHeaderSize self.header.variant
    simp only [roundsLeft, remaining, hfd, hfd']
    omega

theorem Spaced.append {packets : List PacketStorageT} (h : Spaced variant packets)
    {storage : PacketStorageT}
    (hbelow : ∀ e ∈ packets, e.offset + packetHeaderSize variant ≤ storage.offset) :
    Spaced variant (packets ++ [storage]) := by
  apply List.pairwise_append.mpr
  refine ⟨h, List.pairwise_singleton _ _, ?_⟩
  intro a ha b hb
  rw [List.mem_singleton.mp hb]
  exact hbelow a ha

theorem ingestPacket_indexing (host : Order) (h : Indexing f variant self) :
    (ingestPacket host self).All (Indexing f variant) fun result =>
      result.2.packets.length ≤ (f.size - 20) / 16 ∧ Spaced variant result.2.packets := by
  obtain ⟨pos, hfd, hspace, hpos, hbelow⟩ := h.place
  rcases ingestPacket_cases host self with
    ⟨ok, file, hstop⟩ | ⟨g, pos', size, file, hfd', hle, hround⟩
  · rw [hstop]
    exact ⟨h.count, h.spaced⟩
  · rw [hfd] at hfd'
    cases hfd'
    have hcount : ∀ storage, (self.packets ++ [storage]).length ≤ (f.size - 20) / 16 := by
      intro storage
      rw [List.length_append, List.length_singleton]
      omega
    have hspaced : Spaced variant (self.packets ++ [{ len := size, offset := pos }]) :=
      h.spaced.append hbelow
    rcases hround with hstop | ⟨hmore, hfd'⟩
    · rw [hstop]
      exact ⟨hcount _, hspaced⟩
    · have hheader := packetHeaderSize_eq self.header.variant
      have hsize := le_packetHeaderSize self.header.variant
      have hlt : size.toNat < 2 ^ 32 := size.toNat_lt
      have hbody := getPacketBodyOffset_le self.header.variant
      rw [hmore]
      refine ⟨h.header, ⟨_, hfd', ?_, ?_, ?_⟩, hcount _, hspaced⟩
      · rw [List.length_append, List.length_singleton]
        omega
      · omega
      · intro e he
        rw [← h.header]
        rcases List.mem_append.mp he with he | he
        · have hle := hbelow e he
          rw [← h.header] at hle
          omega
        · rw [List.mem_singleton.mp he]
          dsimp only
          omega

theorem Indexing.inRange (host : Order) (h : Indexing f variant self) (hsize : f.size < 2 ^ 62) :
    RoundInRange host self := by
  obtain ⟨pos, hfd, _, hpos, _⟩ := h.place
  have hoff : ptrdiffT pktLenOffset = (pktLenOffset : Nat) := ptrdiffT_of_lt (by decide)
  have hnear : pos + pktLenOffset < offLimit := by
    unfold pktLenOffset offLimit
    omega
  have hbehind : (self.file.seek (ptrdiffT pktLenOffset) .cur).2.fd =
      some ⟨f, pos + pktLenOffset⟩ := by
    rw [hoff, (FdT.seek_fd hfd pktLenOffset .cur).2, fdseek_cur, if_pos hnear]
  simp only [RoundInRange, FdT.tell_eq hfd]
  refine ⟨Int.natCast_nonneg pos, by omega, ?_⟩
  intro size hread
  obtain ⟨hle, hfd'⟩ := FdT.read_some hbehind (by decide) hread
  have hlt : size.toNat < 2 ^ 32 := size.toNat_lt
  have hbody := getPacketBodyOffset_le self.header.variant
  rw [FdT.tell_eq hfd']
  refine ⟨Int.natCast_nonneg _, ?_⟩
  unfold offLimit
  omega

/-! ## The whole loop -/

/-- `ingest_packets` ends on every file after as many rounds as packet headers
fit behind the file header, and one more. It leaves no more entries than that,
at least a packet header apart, and none of its sums overflows. -/
theorem ingestPackets_bounded (host : Order) (hfd : self.file.fd = some ⟨f, 24⟩)
    (hpackets : self.packets = []) (hsize : f.size < 2 ^ 62) :
    let result := self.ingestPackets host
    run (ingestPacket host) ((f.size - 20) / 16 + 1) self = some result ∧
      result.2.packets.length ≤ (f.size - 20) / 16 ∧
      (f.size < 36 → result.2.packets = []) ∧
      Spaced self.header.variant result.2.packets ∧
      ∀ s, Visits (ingestPacket host) self s → RoundInRange host s := by
  intro result
  have hfirst : Indexing f self.header.variant self := by
    refine ⟨rfl, ⟨24, hfd, ?_, ?_, ?_⟩, ?_, ?_⟩
    · simp [hpackets]
    · omega
    · simp [hpackets]
    · simp [hpackets]
    · rw [hpackets]
      exact List.Pairwise.nil
  have hrounds : (f.size - 20) / 16 = self.roundsLeft := by
    simp only [roundsLeft, remaining, hfd]
    omega
  obtain ⟨hcount, hspaced⟩ : result.2.packets.length ≤ (f.size - 20) / 16 ∧
      Spaced self.header.variant result.2.packets :=
    (loop_ends self).invariant (fun _ => ingestPacket_indexing host) hfirst
  refine ⟨?_, hcount, ?_, hspaced, ?_⟩
  · rw [hrounds]
    exact run_eq_loop (ingestPacket_roundsLeft host) self
  · intro hshort
    apply List.length_eq_zero_iff.mp
    omega
  · intro s hvisits
    exact (hvisits.invariant (fun _ => ingestPacket_indexing host) hfirst).inRange host hsize

def behindHeader (f : RegularFile) : PcapT :=
  setUp ((openFile (some f) "sample.pcap" false).movedTo f 24) .uncompressed true false

theorem ingestPackets_bounded_sample :
    let result := (behindHeader (sampleFile .big)).ingestPackets .little
    run (ingestPacket .little) (((sampleFile .big).size - 20) / 16 + 1)
        (behindHeader (sampleFile .big)) = some result ∧
      result.2.packets.length ≤ ((sampleFile .big).size - 20) / 16 ∧
      ((sampleFile .big).size < 36 → result.2.packets = []) ∧
      Spaced (behindHeader (sampleFile .big)).header.variant result.2.packets ∧
      ∀ s, Visits (ingestPacket .little) (behindHeader (sampleFile .big)) s →
        RoundInRange .little s :=
  ingestPackets_bounded .little rfl rfl (by decide)

end PcapT

end LibNokogiri.Pcap
