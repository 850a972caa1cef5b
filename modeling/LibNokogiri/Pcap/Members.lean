import LibNokogiri.Pcap.Compression
import LibNokogiri.Pcap.Iteration

/-! # The public members of `pcap_t`

Everything a program can ask of a capture, as requests with replies. Behind
them a capture is no more than the bytes it holds, what was parsed from them and
the packets read so far: where the file stands, what it is called, and whether
the capture was opened read-only or prefetched is never seen.
-/

namespace LibNokogiri.Pcap

open ByteCodec Framing Internal PcapT Run

namespace PcapT

/-! ## Members that write -/

/-- `save()`, in which nothing is written and the last return is `false`. -/
def save (self : PcapT) : Bool × PcapT :=
  if self.readonly then (false, self)
  else
    let r := self.file.seek 0 .set
    let self := { self with file := r.2 }
    if r.1 ≠ 0 then (false, self) else (false, self)

/-- `remove_packet(std::size_t)`, whose body is empty. -/
def removePacket (self : PcapT) (_index : Nat) : PcapT := self

def setHeader (self : PcapT) (header : FileHeaderT) : PcapT := { self with header }

end PcapT

/-! ## Requests -/

inductive Request
  | needsSwapping
  | header
  | setHeader (header : FileHeaderT)
  | compressionType
  | valid
  | packetCount
  | save
  | removePacket (index : Nat)
  | getPacket (idx : Nat)
  /-- `get_packet(packet_storage_t&)` on an element of the caller's own -/
  | getStored (storage : PacketStorageT)
  /-- `*it` for an iterator that stands at the position -/
  | dereference (position : Nat)
  /-- a look through a reference that an earlier call returned -/
  | look (idx : Nat)
  /-- a change through a reference that an earlier call returned -/
  | modify (idx : Nat) (packet : PacketT)

inductive Reply
  | done
  | flag (value : Bool)
  | fileHeader (value : FileHeaderT)
  | compression (value : CaptureCompressionT)
  | count (value : Nat)
  | packet (value : Option PacketT)
  | stored (value : Option PacketT) (storage : PacketStorageT)
deriving DecidableEq

/-- A failed seek returns -1, and that is the last `std::uintptr_t`. -/
def Request.Proper : Request → Prop
  | .getStored storage => storage.offset < 2 ^ 64 - 1
  | _ => True

namespace PcapT

def serve (host : Order) (self : PcapT) : Request → Option (Reply × PcapT)
  | .needsSwapping => some (.flag self.needsSwapping, self)
  | .header => some (.fileHeader self.header, self)
  | .setHeader header => some (.done, self.setHeader header)
  | .compressionType => some (.compression self.compression, self)
  | .valid => some (.flag self.valid, self)
  | .packetCount => some (.count self.packetCount, self)
  | .save => some (.flag self.save.1, self.save.2)
  | .removePacket index => some (.done, self.removePacket index)
  | .getPacket idx => (self.getPacket host idx).outcome.map fun r => (.packet r.1, r.2)
  | .getStored storage =>
      let r := self.getStoredPacket host storage
      some (.stored r.1 r.2.2, { self with file := r.2.1 })
  | .dereference position => (self.accessor host position).map fun r => (.packet r.1, r.2)
  | .look idx => self.packets[idx]?.map fun storage => (.packet (some storage.packetCache), self)
  | .modify idx packet =>
      self.packets[idx]?.map fun storage =>
        (.done, { self with packets := self.packets.set idx (storage.setPacket packet) })

end PcapT

/-! ## Views -/

/-- A capture without its file position, its cached length and its flags. -/
structure View where
  content : Bytes
  compression : CaptureCompressionT
  header : FileHeaderT
  valid : Bool
  needsSwapping : Bool
  packets : List PacketStorageT

def PcapT.view (self : PcapT) : View where
  content := self.file.content
  compression := self.compression
  header := self.header
  valid := self.valid
  needsSwapping := self.needsSwapping
  packets := self.packets

namespace View

def packetAt (host : Order) (v : View) (offset : Nat) : Option PacketT :=
  packetIn host v.header.variant v.content offset

def read (host : Order) (v : View) (idx : Nat) (storage : PacketStorageT) : Reply × View :=
  (.packet (v.packetAt host storage.offset),
    { v with packets := v.packets.set idx (cached storage (v.packetAt host storage.offset)) })

def serve (host : Order) (v : View) : Request → Option (Reply × View)
  | .needsSwapping => some (.flag v.needsSwapping, v)
  | .header => some (.fileHeader v.header, v)
  | .setHeader header => some (.done, { v with header })
  | .compressionType => some (.compression v.compression, v)
  | .valid => some (.flag v.valid, v)
  | .packetCount => some (.count v.packets.length, v)
  | .save => some (.flag false, v)
  | .removePacket _ => some (.done, v)
  | .getPacket idx =>
      match v.packets[idx]? with
      | some storage => some (v.read host idx storage)
      | none => if idx = v.packets.length then none else some (.packet none, v)
  | .getStored storage =>
      let packet := v.packetAt host storage.offset
      some (.stored packet (cached storage packet), v)
  | .dereference position => v.packets[position]?.map (v.read host position)
  | .look idx => v.packets[idx]?.map fun storage => (.packet (some storage.packetCache), v)
  | .modify idx packet =>
      v.packets[idx]?.map fun storage =>
        (.done, { v with packets := v.packets.set idx (storage.setPacket packet) })

end View

namespace PcapT

section Square

variable {host : Order} {self : PcapT} {storage : PacketStorageT}

/-! ## One request -/

theorem getStoredPacket_storage (host : Order) (self : PcapT) (storage : PacketStorageT) :
    (self.getStoredPacket host storage).2.2 =
      cached storage (self.getStoredPacket host storage).1 := by
  unfold getStoredPacket
  dsimp only
  split
  · rfl
  · split
    · rfl
    · split <;> rfl

theorem getStoredPacket_far (host : Order) (self : PcapT) (hfar : offLimit ≤ storage.offset)
    (hoffset : storage.offset < 2 ^ 64 - 1) :
    (self.getStoredPacket host storage).1 = none ∧
      packetIn host self.header.variant self.file.content storage.offset = none := by
  have hptr : ptrdiffT storage.offset < -1 := by
    unfold offLimit at hfar
    rw [ptrdiffT, Int.bmod]
    split <;> omega
  have hseek : (self.file.seek (ptrdiffT storage.offset) .set).1 = -1 := by
    cases hfd : self.file.fd with
    | none => simp only [FdT.seek, hfd]
    | some f =>
        have hrange : ¬ (0 ≤ ptrdiffT storage.offset ∧ ptrdiffT storage.offset < offLimit) := by
          omega
        simp only [FdT.seek, hfd, fdseek, Int.zero_add, if_neg hrange]
  have hsize : self.file.content.length < offLimit := by
    unfold FdT.content
    cases self.file.fd with
    | none => decide
    | some f => exact f.file.size_lt
  constructor
  · have hne : (-1 : Int) ≠ ptrdiffT storage.offset := by omega
    unfold getStoredPacket
    simp only [hseek, if_pos hne]
  · have hshort : ¬ storage.offset + packetHeaderSize self.header.variant ≤
        self.file.content.length := by omega
    exact if_neg fun h => hshort h.1

theorem getStoredPacket_view (host : Order) (self : PcapT)
    (hoffset : storage.offset < 2 ^ 64 - 1) :
    (self.getStoredPacket host storage).1 = self.view.packetAt host storage.offset := by
  by_cases hlt : storage.offset < offLimit
  · exact getStoredPacket_in host self hlt
  · obtain ⟨hnone, hpacket⟩ := getStoredPacket_far host self (Nat.not_lt.mp hlt) hoffset
    exact hnone.trans hpacket.symm

theorem read_view (host : Order) (self : PcapT) (idx : Nat)
    (hoffset : storage.offset < 2 ^ 64 - 1) :
    Prod.map Reply.packet view ((self.getStoredPacket host storage).1,
        { self with
          file := (self.getStoredPacket host storage).2.1
          packets := self.packets.set idx (self.getStoredPacket host storage).2.2 }) =
      self.view.read host idx storage := by
  have hcontent := getStoredPacket_content host self storage
  rw [getStoredPacket_storage]
  simp only [Prod.map, view, View.read, hcontent]
  rw [getStoredPacket_view host self hoffset]
  rfl

theorem save_view (self : PcapT) : self.save.1 = false ∧ self.save.2.view = self.view := by
  unfold save
  split
  · exact ⟨rfl, rfl⟩
  · dsimp only
    have hcontent := FdT.seek_content self.file 0 .set
    split <;> exact ⟨rfl, by simp only [view, hcontent]⟩

theorem offset_lt_of_below {packets : List PacketStorageT} (h : OffsetsBelow packets) {idx : Nat}
    (hget : packets[idx]? = some storage) : storage.offset < 2 ^ 64 - 1 := by
  have hlt := h storage (List.mem_of_getElem? hget)
  unfold offLimit at hlt
  omega

/-- The reply to a request is the reply of the view. -/
theorem serve_view (host : Order) (self : PcapT) (hoffsets : OffsetsBelow self.packets)
    {request : Request} (hproper : request.Proper) :
    (self.serve host request).map (Prod.map id view) = self.view.serve host request := by
  cases request with
  | save =>
      obtain ⟨hsave, hview⟩ := self.save_view
      simp only [serve, View.serve, Option.map_some, Prod.map, id, hsave, hview]
  | getPacket idx =>
      simp only [serve, View.serve, getPacket]
      change _ = match self.packets[idx]? with | some storage => _ | none => _
      cases hget : self.packets[idx]? with
      | none =>
          have hge : self.packets.length ≤ idx := List.getElem?_eq_none_iff.mp hget
          by_cases hidx : idx = self.packets.length
          · rw [if_pos (Nat.le_of_eq hidx), if_pos (show idx = self.view.packets.length from hidx)]
            rfl
          · rw [if_neg (by omega), if_neg (show ¬ idx = self.view.packets.length from hidx)]
            rfl
      | some storage =>
          have hlt : idx < self.packets.length := (List.getElem?_eq_some_iff.mp hget).choose
          rw [if_pos (Nat.le_of_lt hlt)]
          exact congrArg some (read_view host self idx (offset_lt_of_below hoffsets hget))
  | getStored storage =>
      have hcontent := getStoredPacket_content host self storage
      simp only [serve, View.serve, Option.map_some, Prod.map, id]
      rw [getStoredPacket_storage, getStoredPacket_view host self hproper]
      simp only [view, hcontent]
  | dereference position =>
      simp only [serve, View.serve, accessor]
      change _ = self.packets[position]?.map _
      cases hget : self.packets[position]? with
      | none => rfl
      | some storage =>
          exact congrArg some (read_view host self position (offset_lt_of_below hoffsets hget))
  | look idx =>
      simp only [serve, View.serve, view]
      cases self.packets[idx]? <;> rfl
  | modify idx packet =>
      simp only [serve, View.serve, view]
      cases self.packets[idx]? <;> rfl
  | _ => rfl

theorem serve_entries {request : Request} {reply : Reply} {next : PcapT}
    (h : self.serve host request = some (reply, next)) :
    next.packets.map PacketStorageT.entry = self.packets.map PacketStorageT.entry := by
  have hread : ∀ {idx : Nat} {storage : PacketStorageT}, self.packets[idx]? = some storage →
      ((self.packets.set idx (self.getStoredPacket host storage).2.2).map PacketStorageT.entry) =
        self.packets.map PacketStorageT.entry :=
    fun hget => entries_set hget (getStoredPacket_entry host self _)
  cases request with
  | save =>
      cases h
      unfold save
      split
      · rfl
      · dsimp only
        split <;> rfl
  | getPacket idx =>
      obtain ⟨r, houtcome, heq⟩ := Option.map_eq_some_iff.mp h
      cases heq
      exact getPacket_entries houtcome
  | dereference position =>
      obtain ⟨r, haccess, heq⟩ := Option.map_eq_some_iff.mp h
      cases heq
      unfold accessor at haccess
      split at haccess
      · cases haccess
      · rename_i storage hget
        cases haccess
        exact hread hget
  | look idx =>
      obtain ⟨storage, hget, heq⟩ := Option.map_eq_some_iff.mp h
      cases heq
      rfl
  | modify idx packet =>
      obtain ⟨storage, hget, heq⟩ := Option.map_eq_some_iff.mp h
      cases heq
      exact entries_set hget rfl
  | _ =>
      cases h
      rfl

end Square

/-! ## Construction -/

section Construct

variable {host : Order} {f : RegularFile} {a b : PcapT}

theorem parse_compression (h : a.Unread f) : (a.parse host).compression = a.compression := by
  cases hheaded : headed host f.content with
  | none => rw [parse_unheaded h hheaded, (readHeader_continues host h.fd).state]
  | some kind =>
      obtain ⟨file, _, hparse⟩ := parse_headed h hheaded
      rw [hparse]

theorem parse_view (ha : a.Unread f) (hb : b.Unread f) (hheader : a.header = b.header)
    (hcompression : a.compression = b.compression) :
    (a.parse host).view = (b.parse host).view := by
  have hreads : (a.parse host).Reads host f := parse_reads ha
  have hreads' : (b.parse host).Reads host f := parse_reads hb
  have hagree : Agree host (a.parse host) (b.parse host) := parse_agree ha hb hheader
  obtain ⟨hvalid, hsame, hneeds, _⟩ := hagree
  simp only [view, hreads.onFile.content, hreads'.onFile.content, parse_compression ha,
    parse_compression hb, hcompression, hsame, hvalid, hneeds, hreads.packets, hreads'.packets]

theorem construct_view (host : Order) (z : Zlib) (os : Opens) (file : String)
    (compression : CaptureCompressionT) (readOnly prefetch readOnly' prefetch' : Bool) :
    (construct host z os file compression readOnly prefetch).view =
      (construct host z os file compression readOnly' prefetch').view := by
  cases hdetected : (if compression = .autodetect then
      detectCaptrueCompression (openFile os.capture file false)
    else (compression, openFile os.capture file false)) with
  | mk mode cap =>
      rw [construct_eq host z os file compression readOnly prefetch hdetected,
        construct_eq host z os file compression readOnly' prefetch' hdetected]
      split
      · have hlength := copied_length (GzFileT.ofFd z cap).1 os
        generalize (GzFileT.ofFd z cap).1.decompressTo _ os.writes = copied at hlength
        by_cases hret : copied.1 = -1
        · rw [fromCopy, fromCopy, if_pos hret, if_pos hret]
          rfl
        · cases hfd : copied.2.file.fd with
          | none =>
              have hhead : copied.2.file.head.1 = false := by
                simp [FdT.head, FdT.seek, hfd]
              simp only [fromCopy, if_neg hret, hhead, Bool.not_false, if_true]
              rfl
          | some g =>
              have hparsed := fun ro pf =>
                @fromCopy_parsed host z copied g.file g.pos ro pf hret hfd (.inl hlength)
              have hunread : ∀ ro pf,
                  (setUp (copied.2.file.placedAt g.file 0) .compressed ro pf).Unread g.file :=
                fun ro pf => ⟨rfl, .inr rfl, fun hsize => decide_eq_false (by omega), rfl, rfl, rfl⟩
              rw [(hparsed readOnly prefetch).1, (hparsed readOnly' prefetch').1]
              exact parse_view (hunread _ _) (hunread _ _) rfl rfl
      · cases hcap : os.capture with
        | none =>
            have hclosed : cap.fd = none := detected_closed file compression hcap hdetected
            have hsetUp : ∀ ro pf, (setUp cap mode ro pf).file.fd = none := fun _ _ => hclosed
            rw [parse_closed (hsetUp _ _), parse_closed (hsetUp _ _)]
            rfl
        | some f =>
            rw [detected_eq file compression hcap] at hdetected
            cases hdetected
            exact parse_view (opened_unread compression _ f file _ _)
              (opened_unread compression _ f file _ _) rfl rfl

end Construct

end PcapT

/-! ## Programs -/

inductive Command
  | act (a : Action)
  | ask (i : Nat) (request : Request)

def Command.Proper : Command → Prop
  | .act _ => True
  | .ask _ request => request.Proper

def serveWorld (host : Order) (z : Zlib) (w : World) : Command → Option (Reply × World)
  | .act a => (act host z w a).map fun next => (.done, next)
  | .ask i request => do
      let c ← w[i]?
      let r ← c.serve host request
      some (r.1, w.set i r.2)

namespace View

def swap (a b : View) : View × View :=
  ({ a with
     content := b.content, compression := b.compression, header := b.header, valid := b.valid },
   { b with
     content := a.content, compression := a.compression, header := a.header, valid := a.valid })

def blank : View :=
  { content := [], compression := .uncompressed, header := {}, valid := false
    needsSwapping := false, packets := [] }

def construct (host : Order) (z : Zlib) (os : Opens) (file : String)
    (compression : CaptureCompressionT) : View :=
  (PcapT.construct host z os file compression true false).view

def exchange (w : List View) (i j : Nat) : Option (List View) := do
  let a ← w[i]?
  let b ← w[j]?
  some ((w.set i (swap a b).1).set j (swap a b).2)

def act (host : Order) (z : Zlib) (w : List View) : Action → Option (List View)
  | .construct os file compression _ _ => some (w ++ [construct host z os file compression])
  | .getPacket i idx => do
      let v ← w[i]?
      let r ← v.serve host (.getPacket idx)
      some (w.set i r.2)
  | .swap i j | .moveAssign i j => exchange w i j
  | .moveConstruct i => do
      let v ← w[i]?
      some (w.set i (swap blank v).2 ++ [(swap blank v).1])

def serveWorld (host : Order) (z : Zlib) (w : List View) : Command → Option (Reply × List View)
  | .act a => (act host z w a).map fun next => (.done, next)
  | .ask i request => do
      let v ← w[i]?
      let r ← v.serve host request
      some (r.1, w.set i r.2)

end View

section Programs

variable {host : Order} {z : Zlib} {w : World}

theorem swap_view (a b : PcapT) :
    (swap a b).1.view = (View.swap a.view b.view).1 ∧
      (swap a b).2.view = (View.swap a.view b.view).2 := ⟨rfl, rfl⟩

theorem exchange_view (w : World) (i j : Nat) :
    (exchange swap w i j).map (List.map view) = View.exchange (w.map view) i j := by
  unfold exchange View.exchange
  rw [List.getElem?_map, List.getElem?_map]
  cases w[i]? with
  | none => rfl
  | some a =>
      cases w[j]? with
      | none => rfl
      | some b =>
          obtain ⟨hfirst, hsecond⟩ := swap_view a b
          simp only [Option.bind_eq_bind, Option.bind_some, Option.map_some, List.map_set, hfirst,
            hsecond]

theorem act_view (hw : ∀ c ∈ w, OffsetsBelow c.packets) (a : Action) :
    (act host z w a).map (List.map view) = View.act host z (w.map view) a := by
  cases a with
  | construct os file compression readOnly prefetch =>
      simp only [act, View.act, Option.map_some, List.map_append, List.map_cons, List.map_nil,
        View.construct, construct_view host z os file compression readOnly prefetch true false]
  | getPacket i idx =>
      simp only [act, View.act, List.getElem?_map]
      cases hget : w[i]? with
      | none => rfl
      | some c =>
          have hserve := @serve_view host c (hw c (List.mem_of_getElem? hget)) (.getPacket idx)
            trivial
          simp only [Option.bind_eq_bind, Option.bind_some, Option.map_some, ← hserve, serve]
          cases (c.getPacket host idx).outcome with
          | none => rfl
          | some r =>
              simp only [Option.bind_some, Option.map_some, List.map_set, Prod.map]
  | swap i j => exact exchange_view w i j
  | moveConstruct i =>
      simp only [act, View.act, List.getElem?_map]
      cases w[i]? with
      | none => rfl
      | some c =>
          simp only [Option.bind_eq_bind, Option.bind_some, Option.map_some, List.map_append,
            List.map_set, List.map_cons, List.map_nil]
          rfl
  | moveAssign i j => exact exchange_view w i j

theorem serveWorld_view (hw : ∀ c ∈ w, OffsetsBelow c.packets) {command : Command}
    (hproper : command.Proper) :
    (serveWorld host z w command).map (Prod.map id (List.map view)) =
      View.serveWorld host z (w.map view) command := by
  cases command with
  | act a =>
      simp only [serveWorld, View.serveWorld, ← act_view hw, Option.map_map]
      rfl
  | ask i request =>
      simp only [serveWorld, View.serveWorld, List.getElem?_map]
      cases hget : w[i]? with
      | none => rfl
      | some c =>
          have hserve := serve_view host c (hw c (List.mem_of_getElem? hget)) hproper
          simp only [Option.bind_eq_bind, Option.bind_some, Option.map_some, ← hserve]
          cases c.serve host request with
          | none => rfl
          | some r => simp only [Option.bind_some, Option.map_some, List.map_set, Prod.map, id]

theorem serveWorld_offsetsBelow {command : Command} {r : Reply × World}
    (hw : ∀ c ∈ w, OffsetsBelow c.packets) (hserve : serveWorld host z w command = some r) :
    ∀ c ∈ r.2, OffsetsBelow c.packets := by
  cases command with
  | act a =>
      obtain ⟨next, hact, rfl⟩ := Option.map_eq_some_iff.mp hserve
      exact act_offsetsBelow hw hact
  | ask i request =>
      obtain ⟨c, hc, hserve⟩ := Option.bind_eq_some_iff.mp hserve
      obtain ⟨s, hs, hserve⟩ := Option.bind_eq_some_iff.mp hserve
      cases hserve
      intro d hd
      rcases List.mem_or_eq_of_mem_set hd with hd | rfl
      · exact hw d hd
      · exact (hw c (List.mem_of_getElem? hc)).of_entries (serve_entries hs)

end Programs

/-- A program cannot tell its captures from their views: whatever it constructs,
asks, reads, swaps and moves, in any order, the replies are those of the views. -/
theorem transcript_views (host : Order) (z : Zlib) {commands : List Command}
    (hproper : ∀ command ∈ commands, command.Proper) :
    (transcript (serveWorld host z) [] commands).map (Prod.map id (List.map view)) =
      transcript (View.serveWorld host z) [] commands := by
  apply transcript_view (List.map view) (I := fun w => ∀ c ∈ w, OffsetsBelow c.packets) _ _ _
    hproper
  · intro w command r hw _ hserve
    exact serveWorld_offsetsBelow hw hserve
  · intro w command hw hproper
    exact serveWorld_view hw hproper
  · intro c hc
    cases hc

def Command.flagless : Command → Command
  | .act (.construct os file compression _ _) =>
      .act (.construct os file compression true false)
  | command => command

/-- Where the files open alike, it makes no difference to any reply of any program
whether captures are opened read-only or prefetched. -/
theorem flags_unseen (host : Order) (z : Zlib) {commands commands' : List Command}
    (hproper : ∀ command ∈ commands, command.Proper)
    (hsame : commands.map Command.flagless = commands'.map Command.flagless) :
    (transcript (serveWorld host z) [] commands).map Prod.fst =
      (transcript (serveWorld host z) [] commands').map Prod.fst := by
  have hflagless : ∀ command : Command, command.flagless.Proper = command.Proper := by
    rintro (⟨os, file, compression, readOnly, prefetch⟩ | ⟨i, request⟩) <;> rfl
  have hproper' : ∀ command ∈ commands', command.Proper := by
    have hall : ∀ command ∈ commands.map Command.flagless, command.Proper :=
      List.forall_mem_map.mpr fun command h => (hflagless command).mpr (hproper command h)
    rw [hsame] at hall
    exact fun command h => (hflagless command).mp (List.forall_mem_map.mp hall command h)
  have halike : ∀ (w : List View) (command : Command),
      View.serveWorld host z w command.flagless = View.serveWorld host z w command := by
    rintro w (⟨os, file, compression, readOnly, prefetch⟩ | ⟨i, request⟩) <;> rfl
  have hreplies : ∀ {as : List Command}, (∀ command ∈ as, command.Proper) →
      (transcript (serveWorld host z) [] as).map Prod.fst =
        (transcript (View.serveWorld host z) [] (as.map Command.flagless)).map Prod.fst := by
    intro as has
    rw [transcript_map halike, ← transcript_views host z has, Option.map_map]
    rfl
  rw [hreplies hproper, hsame, hreplies hproper']

def sampleSession (readOnly prefetch : Bool) : List Command :=
  [.act (.construct (opening (sampleFile .little)) "sample.pcap" .autodetect readOnly prefetch),
    .ask 0 .packetCount, .ask 0 (.getPacket 1), .ask 0 .save, .ask 0 (.look 1),
    .act (.moveConstruct 0), .ask 0 (.dereference 0), .ask 1 .valid]

theorem sampleSession_proper (readOnly prefetch : Bool) :
    ∀ command ∈ sampleSession readOnly prefetch, command.Proper := by
  simp [sampleSession, Command.Proper, Request.Proper]

theorem transcript_views_sample :
    (transcript (serveWorld .little storedZlib) [] (sampleSession false true)).map
        (Prod.map id (List.map view)) =
      transcript (View.serveWorld .little storedZlib) [] (sampleSession false true) :=
  transcript_views .little storedZlib (sampleSession_proper false true)

theorem flags_unseen_sample :
    (transcript (serveWorld .little storedZlib) [] (sampleSession false true)).map Prod.fst =
      (transcript (serveWorld .little storedZlib) [] (sampleSession true false)).map Prod.fst :=
  flags_unseen .little storedZlib (sampleSession_proper false true) rfl

end LibNokogiri.Pcap
