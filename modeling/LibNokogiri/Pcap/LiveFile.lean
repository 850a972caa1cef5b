import LibNokogiri.Internal.SharedFile
import LibNokogiri.Pcap.Editing
import LibNokogiri.Pcap.Members

/-! # Captures whose file is written to

While a capture is open another program may write to its file or cut it off.
The index stays what it was, and a packet that the capture has can be had
again in any state reached, until bytes of its own record change.
-/

namespace LibNokogiri.Pcap

open ByteCodec Framing Internal PcapT Run Tape

/-! ## Events -/

inductive LiveEvent
  | ask (request : Request)
  | write (pos : Nat) (buffer : Bytes) (outcome : WriteOutcome)
  | truncate (size : Int) (granted : Bool)

namespace PcapT

def onto (self : PcapT) (change : RegularFile → RegularFile) : PcapT :=
  { self with file := { self.file with fd := self.file.fd.map fun f =>
      { f with file := change f.file } } }

def liveStep (host : Order) (self : PcapT) : LiveEvent → Option PcapT
  | .ask request => (self.serve host request).map Prod.snd
  | .write pos buffer outcome => some (self.onto fun f => (fdwrite ⟨f, pos⟩ buffer outcome).2.file)
  | .truncate size granted => some (self.onto fun f => (fdtruncate ⟨f, 0⟩ size granted).2.file)

/-- The event reaches no byte from `first` up to `last`, and resets no header. -/
def LeavesAlone (first last : Nat) (_ : PcapT) : LiveEvent → Prop
  | .ask (.setHeader _) => False
  | .ask _ => True
  | .write pos buffer _ => pos + buffer.length ≤ first ∨ last ≤ pos
  | .truncate size granted => granted = true → last ≤ size

section Steps

variable {host : Order} {self next : PcapT} {first last : Nat}

theorem serve_content {request : Request} {reply : Reply}
    (h : self.serve host request = some (reply, next)) :
    next.file.content = self.file.content ∧
      ((∀ header, request ≠ .setHeader header) → next.header = self.header) := by
  cases request with
  | setHeader header =>
      cases h
      exact ⟨rfl, fun hother => absurd rfl (hother header)⟩
  | save =>
      cases h
      have hview := self.save_view.2
      exact ⟨congrArg View.content hview, fun _ => congrArg View.header hview⟩
  | getPacket idx =>
      obtain ⟨r, houtcome, heq⟩ := Option.map_eq_some_iff.mp h
      cases heq
      rcases getPacket_cases houtcome with hsame | ⟨storage, _, hread⟩
      · rw [hsame]
        exact ⟨rfl, fun _ => rfl⟩
      · rw [hread]
        exact ⟨getStoredPacket_content host self storage, fun _ => rfl⟩
  | getStored storage =>
      cases h
      exact ⟨getStoredPacket_content host self storage, fun _ => rfl⟩
  | dereference position =>
      obtain ⟨r, haccess, heq⟩ := Option.map_eq_some_iff.mp h
      cases heq
      unfold accessor at haccess
      split at haccess
      · cases haccess
      · rename_i storage _
        cases haccess
        exact ⟨getStoredPacket_content host self storage, fun _ => rfl⟩
  | look idx =>
      obtain ⟨storage, _, heq⟩ := Option.map_eq_some_iff.mp h
      cases heq
      exact ⟨rfl, fun _ => rfl⟩
  | modify idx packet =>
      obtain ⟨storage, _, heq⟩ := Option.map_eq_some_iff.mp h
      cases heq
      exact ⟨rfl, fun _ => rfl⟩
  | _ =>
      cases h
      exact ⟨rfl, fun _ => rfl⟩

theorem onto_content {change : RegularFile → RegularFile} {count : Nat}
    (hkeeps : ∀ f : RegularFile, first + count ≤ f.size →
      first + count ≤ (change f).size ∧
        slice (change f).content first count = slice f.content first count)
    (hsize : first + count ≤ self.file.content.length) :
    first + count ≤ (self.onto change).file.content.length ∧
      slice (self.onto change).file.content first count = slice self.file.content first count := by
  unfold onto FdT.content at *
  dsimp only
  cases hfd : self.file.fd with
  | none =>
      rw [hfd] at hsize
      exact ⟨hsize, rfl⟩
  | some f =>
      rw [hfd] at hsize
      exact hkeeps f.file hsize

theorem edited_content {f g : RegularFile} {e : Edit UInt8} {count : Nat}
    (htape : g.tape = f.tape.edited e) (hspares : e.Spares first (first + count))
    (hsize : first + count ≤ f.size) :
    first + count ≤ g.size ∧ slice g.content first count = slice f.content first count := by
  have hwindow := window_edited hspares hsize (t := f.tape)
  rw [← htape, RegularFile.tape_window, RegularFile.tape_window] at hwindow
  refine ⟨?_, hwindow⟩
  show first + count ≤ g.tape.size
  rw [htape]
  exact hspares.sizeAfter hsize

structure KeepsFrom (capture : PcapT) (first count : Nat) (later : PcapT) : Prop where
  entries : later.packets.map PacketStorageT.entry = capture.packets.map PacketStorageT.entry
  header : later.header = capture.header
  inside : first + count ≤ later.file.content.length
  bytes : slice later.file.content first count = slice capture.file.content first count

theorem KeepsFrom.onto {later : PcapT} {count : Nat} {change : RegularFile → RegularFile}
    (h : KeepsFrom self first count later)
    (hkeeps : ∀ f : RegularFile, first + count ≤ f.size →
      first + count ≤ (change f).size ∧
        slice (change f).content first count = slice f.content first count) :
    KeepsFrom self first count (later.onto change) := by
  obtain ⟨hinside, hbytes⟩ := onto_content hkeeps h.inside
  exact ⟨h.entries, h.header, hinside, hbytes.trans h.bytes⟩

/-- No event that leaves the bytes alone changes them, the index or the header. -/
theorem KeepsFrom.step {later : PcapT} {count : Nat} {event : LiveEvent}
    (h : KeepsFrom self first count later)
    (halone : LeavesAlone first (first + count) later event)
    (hstep : later.liveStep host event = some next) : KeepsFrom self first count next := by
  cases event with
  | ask request =>
      obtain ⟨⟨reply, _⟩, hserve, rfl⟩ := Option.map_eq_some_iff.mp hstep
      obtain ⟨hcontent, hheader⟩ := serve_content hserve
      have hother : ∀ header, request ≠ .setHeader header := by
        rintro header rfl
        exact halone
      refine ⟨(serve_entries hserve).trans h.entries, (hheader hother).trans h.header, ?_, ?_⟩
      · rw [hcontent]
        exact h.inside
      · rw [hcontent]
        exact h.bytes
  | write pos buffer outcome =>
      cases hstep
      apply h.onto
      intro f hsize
      cases outcome with
      | failed => exact ⟨hsize, rfl⟩
      | accepted n =>
          rcases fdwrite_accepted ⟨f, pos⟩ buffer n with ⟨_, g, hstored, htape⟩ | ⟨_, hsame⟩
          · rw [hstored]
            apply edited_content htape _ hsize
            rcases halone with hbefore | hbehind
            · have hlen := List.length_take_le' n buffer
              exact .inl (show pos + _ ≤ first by omega)
            · exact .inr hbehind
          · rw [hsame]
            exact ⟨hsize, rfl⟩
  | truncate size granted =>
      cases hstep
      apply h.onto
      intro f hsize
      rcases fdtruncate_granted ⟨f, 0⟩ size granted with ⟨hrange, g, hcut, htape⟩ | ⟨_, hsame⟩
      · have hlast : ((first + count : Nat) : Int) ≤ size := halone hrange.1
        rw [hcut]
        exact edited_content htape (show first + count ≤ size.toNat by omega) hsize
      · rw [hsame]
        exact ⟨hsize, rfl⟩

end Steps

end PcapT

/-- A packet that a capture has it keeps, whatever calls are made on the
capture and whatever is written to its file meanwhile, until bytes of the
packet's own record are written or cut off; the number of packets stays as it
was when the file was indexed. -/
theorem live_packet {host : Order} {z : Zlib} {w : World} (hw : Reachable (act host z) [] w)
    {capture later : PcapT} (hcapture : capture ∈ w) {i : Nat} {storage : PacketStorageT}
    {packet : PacketT} (hget : capture.packets[i]? = some storage)
    (hpacket : capture.packetAt host i = some packet)
    (hrun : Reaches (liveStep host) (LeavesAlone storage.offset
      (storage.offset + (packetHeaderSize capture.header.variant + packet.rawData.length)))
      capture later) :
    later.packetAt host i = some packet ∧ later.packetCount = capture.packetCount ∧
      later.header = capture.header := by
  have hoffsets : OffsetsBelow capture.packets := offsetsBelow_of_reachable hw capture hcapture
  have hin : packetIn host capture.header.variant capture.file.content storage.offset =
      some packet := by
    rw [packetAt_in host capture hoffsets, List.getElem?_map, hget] at hpacket
    exact hpacket
  have hkeeps : KeepsFrom capture storage.offset
      (packetHeaderSize capture.header.variant + packet.rawData.length) later := by
    apply hrun.invariant (I := KeepsFrom capture storage.offset _)
    · exact ⟨rfl, rfl, record_le hin, rfl⟩
    · exact fun _ _ _ h halone hstep => h.step halone hstep
  have hlater : OffsetsBelow later.packets := hoffsets.of_entries hkeeps.entries
  refine ⟨?_, ?_, hkeeps.header⟩
  · rw [packetAt_in host later hlater, hkeeps.entries, List.getElem?_map, hget, hkeeps.header]
    exact packetIn_congr hin hkeeps.inside hkeeps.bytes
  · have hlen := congrArg List.length hkeeps.entries
    rwa [List.length_map, List.length_map] at hlen

def liveEvents : List LiveEvent :=
  [.ask (.getPacket 0), .write 59 [1, 2, 3] (.accepted 3), .write 30 [9, 9] (.accepted 2),
    .ask (.getPacket 1), .truncate 60 true, .ask .save]

def openedLater : PcapT := (perform (liveStep .little) openedSample liveEvents).getD openedSample

theorem live_packet_sample :
    openedLater.packetAt .little 1 = some ⟨[10, 20, 30], .standard ⟨101, 8, 3, 3⟩⟩ ∧
      openedLater.packetCount = openedSample.packetCount ∧
      openedLater.header = openedSample.header := by
  have hworld : Reachable (act .little storedZlib) [] [openedSample] :=
    .next (a := .construct (opening (sampleFile .little)) "sample.pcap" .autodetect true false)
      .start trivial rfl
  have halone : Meets (liveStep .little) (LeavesAlone 40 59) openedSample liveEvents :=
    ⟨trivial, .inr (by decide), .inl (by decide), trivial, fun _ => by decide, trivial, trivial⟩
  have hrun : Reaches (liveStep .little) (LeavesAlone 40 59) openedSample openedLater :=
    Reaches.perform .start halone rfl
  exact @live_packet .little storedZlib _ hworld openedSample openedLater
    (List.mem_singleton.mpr rfl) 1 ⟨3, 40, PacketT.empty⟩ ⟨[10, 20, 30], .standard ⟨101, 8, 3, 3⟩⟩
    rfl rfl hrun

end LibNokogiri.Pcap
