import LibNokogiri.Foundation.Run
import LibNokogiri.Pcap.Compression

/-! # Captures that are read, swapped and moved

A world is a list of captures; an action constructs one, reads a packet from
one, or swaps or moves two of them. The law is that an index belongs to the
file its capture holds. `swap` leaves the index and the byte order of the file
behind, so the law survives a swap or a move only where these agree already.
-/

namespace LibNokogiri.Pcap

open ByteCodec Framing Internal PcapT Run

/-! ## Indices that belong to a file -/

def recordsOf (host : Order) (content : Bytes) : List Entry :=
  match headed host content with
  | some (swapped, variant) => ((recordFormat (host.flipIf swapped) variant).scan content 24).1
  | none => []

/-- Index and byte order of the capture are those of the file it holds. -/
structure Belongs (host : Order) (capture : PcapT) : Prop where
  entries : ∀ storage ∈ capture.packets, storage.entry ∈ recordsOf host capture.file.content
  needsSwapping : capture.needsSwapping = swappedFile host capture.file.content

/-- Every record of a file in the other byte order has a length that reads the
same in both. -/
def SymmetricRecords (host : Order) (content : Bytes) : Prop :=
  swappedFile host content = true → ∀ e ∈ recordsOf host content, byteswap 4 e.length = e.length

theorem swappedFile_nil (host : Order) : swappedFile host [] = false := by
  simp [swappedFile, fileKind]

theorem lengthAt_flip {host : Order} {variant : PcapVariantT} {content : Bytes} {pos : Nat}
    (hfit : pos + 12 ≤ content.length) :
    (recordFormat host.flip variant).lengthAt content pos =
      byteswap 4 ((recordFormat host variant).lengthAt content pos) := by
  have hlen : (slice content (pos + 8) 4).length = 4 := slice_length_of_le hfit
  have h := decode_flip_eq host (slice content (pos + 8) 4)
  rwa [hlen] at h

theorem scan_flip {host : Order} {variant : PcapVariantT} {content : Bytes}
    (h : ∀ e ∈ ((recordFormat host variant).scan content 24).1, byteswap 4 e.length = e.length) :
    (recordFormat host.flip variant).scan content 24 =
      (recordFormat host variant).scan content 24 := by
  apply Format.scan_congr (F := recordFormat host variant) (G := recordFormat host.flip variant)
    rfl rfl rfl
  intro e he
  obtain ⟨_, hlength, hfit⟩ := Format.scan_mem he
  rw [lengthAt_flip hfit, ← hlength, h e he]

/-- A capture fresh from the parser belongs to its file exactly when the byte
order of the file does not show in the lengths of its records. -/
theorem reads_belongs_iff {host : Order} {f : RegularFile} {capture : PcapT}
    (h : capture.Reads host f) : Belongs host capture ↔ SymmetricRecords host f.content := by
  have hcontent := h.onFile.content
  have hentries : (∀ storage ∈ capture.packets,
      storage.entry ∈ recordsOf host capture.file.content) ↔
        ∀ e ∈ (indexOf host f.content).1, e ∈ recordsOf host f.content := by
    rw [← h.entries, hcontent]
    exact List.forall_mem_map.symm
  have hbelongs : Belongs host capture ↔
      ∀ e ∈ (indexOf host f.content).1, e ∈ recordsOf host f.content := by
    rw [← hentries]
    refine ⟨fun hb => hb.entries, fun he => ⟨he, ?_⟩⟩
    rw [h.needsSwapping, hcontent]
  rw [hbelongs]
  unfold SymmetricRecords
  cases hheaded : headed host f.content with
  | none => simp [indexOf, recordsOf, hheaded]
  | some kind =>
      obtain ⟨swapped, variant⟩ := kind
      have hkind := swappedFile_eq (headed_some hheaded).2
      have hindex := indexOf_headed hheaded
      cases swapped with
      | false => simp [recordsOf, hheaded, hindex, hkind]
      | true =>
          have hrecords : recordsOf host f.content =
              ((recordFormat host.flip variant).scan f.content 24).1 := by
            simp only [recordsOf, hheaded, Order.flipIf_true]
          rw [hindex, hrecords]
          constructor
          · intro hmem _
            have hsymmetric : ∀ e ∈ ((recordFormat host variant).scan f.content 24).1,
                byteswap 4 e.length = e.length := by
              intro e he
              obtain ⟨_, hlength, hfit⟩ := Format.scan_mem he
              have hflip := (Format.scan_mem (hmem e he)).2.1
              rw [lengthAt_flip hfit, ← hlength] at hflip
              exact hflip.symm
            rw [scan_flip hsymmetric]
            exact hsymmetric
          · intro hsymmetric e he
            have hsame := scan_flip (hsymmetric hkind)
            rw [Order.flip_flip] at hsame
            rwa [hsame] at he

/-! ## Construction -/

def copyRun (z : Zlib) (os : Opens) (file : String) (compression : CaptureCompressionT) :
    Option (Int32 × Decompression z) :=
  let cap := openFile os.capture file false
  let detected :=
    if compression = .autodetect then detectCaptrueCompression cap else (compression, cap)
  if detected.1 = .compressed then
    some ((GzFileT.ofFd z detected.2).1.decompressTo
      (openFile os.temporary os.temporaryName true) os.writes)
  else none

/-- Opening this file raises no question of byte order: all its record lengths
are symmetric if it is in the other order, and so is none that is left behind
half-copied. -/
def CleanOpening (host : Order) (z : Zlib) (os : Opens) (file : String)
    (compression : CaptureCompressionT) : Prop :=
  match copyRun z os file compression with
  | none => ∀ f, os.capture = some f → SymmetricRecords host f.content
  | some copied =>
      if copied.1 = -1 then swappedFile host copied.2.file.content = false
      else SymmetricRecords host copied.2.file.content

theorem setUp_belongs_iff (host : Order) (file : Fd) (compression : CaptureCompressionT)
    (readOnly prefetch : Bool) :
    Belongs host (setUp file compression readOnly prefetch) ↔
      swappedFile host file.content = false := by
  constructor
  · intro h
    exact h.needsSwapping.symm
  · intro h
    exact ⟨fun _ hmem => absurd hmem List.not_mem_nil, h.symm⟩

theorem fromCopy_belongs_iff (host : Order) {z : Zlib} {copied : Int32 × Decompression z}
    (readOnly prefetch : Bool) (hlength : copied.2.file.length = -1) :
    Belongs host (fromCopy host copied readOnly prefetch) ↔
      if copied.1 = -1 then swappedFile host copied.2.file.content = false
      else SymmetricRecords host copied.2.file.content := by
  rcases fromCopy_cases host readOnly prefetch hlength with
    ⟨hret, hc⟩ | ⟨hret, hfd, hc⟩ | ⟨g, hret, hfd, hparsed⟩
  · rw [hc, if_pos hret]
    exact setUp_belongs_iff host _ _ _ _
  · have hnil : copied.2.file.content = [] := by simp only [FdT.content, hfd]
    have hrewound : copied.2.file.head.2.content = [] := by
      rw [FdT.head, FdT.seek_content, hnil]
    rw [hc, if_neg hret, setUp_belongs_iff, hrewound, hnil]
    simp [SymmetricRecords, swappedFile_nil]
  · have hcontent : copied.2.file.content = g.file.content := by
      simp only [FdT.content, hfd]
    rw [if_neg hret, hcontent]
    exact reads_belongs_iff hparsed.reads

theorem construct_belongs_iff (host : Order) (z : Zlib) (os : Opens) (file : String)
    (compression : CaptureCompressionT) (readOnly prefetch : Bool) :
    Belongs host (construct host z os file compression readOnly prefetch) ↔
      CleanOpening host z os file compression := by
  cases hdetected : (if compression = .autodetect then
      detectCaptrueCompression (openFile os.capture file false)
    else (compression, openFile os.capture file false)) with
  | mk mode cap =>
      rw [construct_eq host z os file compression readOnly prefetch hdetected]
      by_cases hmode : mode = .compressed
      · have hrun : copyRun z os file compression =
            some ((GzFileT.ofFd z cap).1.decompressTo
              (openFile os.temporary os.temporaryName true) os.writes) := by
          simp only [copyRun, hdetected, if_pos hmode]
        simp only [if_pos hmode, CleanOpening, hrun]
        exact fromCopy_belongs_iff host readOnly prefetch (copied_length _ os)
      · have hrun : copyRun z os file compression = none := by
          simp only [copyRun, hdetected, if_neg hmode]
        simp only [if_neg hmode, CleanOpening, hrun]
        cases hcap : os.capture with
        | none =>
            have hfd : (setUp cap mode readOnly prefetch).file.fd = none :=
              detected_closed file compression hcap hdetected
            have hnil : cap.content = [] := by
              change cap.fd = none at hfd
              simp only [FdT.content, hfd]
            rw [parse_closed hfd, setUp_belongs_iff, hnil]
            simp [swappedFile_nil]
        | some f =>
            rw [detected_eq file compression hcap] at hdetected
            cases hdetected
            rw [reads_belongs_iff (parse_reads (opened_unread compression _ f file readOnly
              prefetch))]
            simp

/-! ## Reading, swapping and moving -/

theorem getPacket_belongs {host : Order} {self : PcapT} {idx : Nat} {packet : Option PacketT}
    {next : PcapT} (h : Belongs host self)
    (hget : (self.getPacket host idx).outcome = some (packet, next)) : Belongs host next := by
  have hentries := getPacket_entries hget
  rcases getPacket_cases hget with rfl | ⟨storage, _, rfl⟩
  · exact h
  · have hcontent := getStoredPacket_content host self storage
    have hmem : ∀ e ∈ self.packets.map PacketStorageT.entry,
        e ∈ recordsOf host self.file.content := List.forall_mem_map.mpr h.entries
    rw [← hentries, ← hcontent] at hmem
    refine ⟨List.forall_mem_map.mp hmem, ?_⟩
    dsimp only
    rw [hcontent]
    exact h.needsSwapping

/-- The two members that `swap` leaves behind are the same already. -/
def SameIndex (a b : PcapT) : Prop :=
  a.packets.map PacketStorageT.entry = b.packets.map PacketStorageT.entry ∧
    a.needsSwapping = b.needsSwapping

theorem SameIndex.symm {a b : PcapT} (h : SameIndex a b) : SameIndex b a :=
  ⟨h.1.symm, h.2.symm⟩

theorem belongs_of_sameIndex {host : Order} {a b c : PcapT} (hb : Belongs host b)
    (h : SameIndex a b) (hfile : c.file = b.file) (hpackets : c.packets = a.packets)
    (hneeds : c.needsSwapping = a.needsSwapping) : Belongs host c := by
  have hentries : ∀ e ∈ b.packets.map PacketStorageT.entry,
      e ∈ recordsOf host c.file.content := by
    rw [hfile]
    exact List.forall_mem_map.mpr hb.entries
  constructor
  · rw [← h.1, ← hpackets] at hentries
    exact List.forall_mem_map.mp hentries
  · rw [hneeds, h.2, hb.needsSwapping, hfile]

theorem swap_belongs {host : Order} {a b : PcapT} (ha : Belongs host a) (hb : Belongs host b)
    (h : SameIndex a b) : Belongs host (swap a b).1 ∧ Belongs host (swap a b).2 :=
  ⟨belongs_of_sameIndex hb h rfl rfl rfl, belongs_of_sameIndex ha h.symm rfl rfl rfl⟩

theorem blank_belongs (host : Order) : Belongs host blank :=
  ⟨fun _ hmem => absurd hmem List.not_mem_nil, (swappedFile_nil host).symm⟩

theorem packetAt_congr (host : Order) {a b : PcapT} (hfile : a.file = b.file)
    (hheader : a.header = b.header)
    (hentries : a.packets.map PacketStorageT.entry = b.packets.map PacketStorageT.entry)
    (idx : Nat) : a.packetAt host idx = b.packetAt host idx := by
  have hlen : a.packets.length = b.packets.length := by
    simpa using congrArg List.length hentries
  have hget : a.packets[idx]?.map PacketStorageT.entry = b.packets[idx]?.map PacketStorageT.entry := by
    rw [← List.getElem?_map, hentries, List.getElem?_map]
  have hstored : ∀ s t : PacketStorageT, s.offset = t.offset →
      (a.getStoredPacket host s).1 = (b.getStoredPacket host t).1 := by
    intro s t hoffset
    unfold getStoredPacket
    rw [hfile, hheader, hoffset]
    dsimp only
    split
    · rfl
    · split
      · rfl
      · split <;> rfl
  unfold packetAt getPacket
  rw [hlen]
  cases ha : a.packets[idx]? with
  | none =>
      cases hb : b.packets[idx]? with
      | none => split <;> rfl
      | some t => rw [ha, hb] at hget; cases hget
  | some s =>
      cases hb : b.packets[idx]? with
      | none => rw [ha, hb] at hget; cases hget
      | some t =>
          rw [ha, hb] at hget
          have hoffset : s.offset = t.offset := congrArg Entry.offset (Option.some.inj hget)
          split
          · exact hstored s t hoffset
          · rfl

def TakesOver (host : Order) (c b : PcapT) : Prop :=
  c.packetCount = b.packetCount ∧ c.needsSwapping = b.needsSwapping ∧
    ∀ idx, c.packetAt host idx = b.packetAt host idx

theorem swap_takesOver (host : Order) {a b : PcapT} (h : SameIndex a b) :
    TakesOver host (swap a b).1 b ∧ TakesOver host (swap a b).2 a := by
  have hcount : ∀ {x y : PcapT}, SameIndex x y → x.packetCount = y.packetCount := by
    intro x y hxy
    simpa [packetCount] using congrArg List.length hxy.1
  refine ⟨⟨hcount h, h.2, ?_⟩, ⟨hcount h.symm, h.symm.2, ?_⟩⟩
  · exact packetAt_congr host rfl rfl h.1
  · exact packetAt_congr host rfl rfl h.symm.1

/-! ## Worlds of captures -/

abbrev World := List PcapT

inductive Action
  | construct (os : Opens) (file : String) (compression : CaptureCompressionT)
      (readOnly prefetch : Bool)
  | getPacket (i idx : Nat)
  | swap (i j : Nat)
  | moveConstruct (i : Nat)
  | moveAssign (i j : Nat)

def exchange (op : PcapT → PcapT → PcapT × PcapT) (w : World) (i j : Nat) : Option World := do
  let a ← w[i]?
  let b ← w[j]?
  some ((w.set i (op a b).1).set j (op a b).2)

/-- The world after an action; none where an object does not exist, or the call
has no defined outcome. -/
def act (host : Order) (z : Zlib) (w : World) : Action → Option World
  | .construct os file compression readOnly prefetch =>
      some (w ++ [construct host z os file compression readOnly prefetch])
  | .getPacket i idx => do
      let c ← w[i]?
      let r ← (c.getPacket host idx).outcome
      some (w.set i r.2)
  | .swap i j => exchange swap w i j
  | .moveConstruct i => do
      let c ← w[i]?
      some (w.set i (moveConstruct c).2 ++ [(moveConstruct c).1])
  | .moveAssign i j => exchange moveAssign w i j

/-- Construction meets no question of byte order, and what is swapped or moved
has the index and byte order of what it is swapped with. -/
def Clean (host : Order) (z : Zlib) (w : World) : Action → Prop
  | .construct os file compression _ _ => CleanOpening host z os file compression
  | .getPacket _ _ => True
  | .swap i j | .moveAssign i j => ∀ a b, w[i]? = some a → w[j]? = some b → SameIndex a b
  | .moveConstruct i => ∀ c, w[i]? = some c → SameIndex blank c

def Exchanges (w : World) : Action → PcapT → PcapT → Prop
  | .swap i j, a, b | .moveAssign i j, a, b => w[i]? = some a ∧ w[j]? = some b
  | .moveConstruct i, a, b => a = blank ∧ w[i]? = some b
  | .construct .., _, _ | .getPacket .., _, _ => False

section Runs

variable {host : Order} {z : Zlib} {w w' : World}

section Each

variable {P : PcapT → Prop}

theorem Exchanges.forall {a : Action} {c d : PcapT} (h : Exchanges w a c d) (hblank : P blank)
    (hw : ∀ c ∈ w, P c) : P c ∧ P d := by
  cases a with
  | construct os file compression readOnly prefetch => cases h
  | getPacket i idx => cases h
  | swap i j => exact ⟨hw c (List.mem_of_getElem? h.1), hw d (List.mem_of_getElem? h.2)⟩
  | moveConstruct i =>
      obtain ⟨rfl, hd⟩ := h
      exact ⟨hblank, hw d (List.mem_of_getElem? hd)⟩
  | moveAssign i j => exact ⟨hw c (List.mem_of_getElem? h.1), hw d (List.mem_of_getElem? h.2)⟩

theorem exchange_forall {op : PcapT → PcapT → PcapT × PcapT} {i j : Nat}
    (hop : ∀ a b, op a b = swap a b) (hw : ∀ c ∈ w, P c)
    (hswap : ∀ a b, w[i]? = some a ∧ w[j]? = some b → P (swap a b).1 ∧ P (swap a b).2)
    (hact : exchange op w i j = some w') : ∀ c ∈ w', P c := by
  obtain ⟨a, ha, hact⟩ := Option.bind_eq_some_iff.mp hact
  obtain ⟨b, hb, hact⟩ := Option.bind_eq_some_iff.mp hact
  rw [hop] at hact
  cases hact
  obtain ⟨hfirst, hsecond⟩ := hswap a b ⟨ha, hb⟩
  intro c hc
  rcases List.mem_or_eq_of_mem_set hc with hc | rfl
  · rcases List.mem_or_eq_of_mem_set hc with hc | rfl
    · exact hw c hc
    · exact hfirst
  · exact hsecond

theorem act_forall {a : Action} (hw : ∀ c ∈ w, P c)
    (hconstruct : ∀ os file compression readOnly prefetch,
      a = .construct os file compression readOnly prefetch →
        P (construct host z os file compression readOnly prefetch))
    (hget : ∀ c idx packet next, P c → (c.getPacket host idx).outcome = some (packet, next) → P next)
    (hswap : ∀ c d, Exchanges w a c d → P (swap c d).1 ∧ P (swap c d).2)
    (hact : act host z w a = some w') : ∀ c ∈ w', P c := by
  cases a with
  | construct os file compression readOnly prefetch =>
      cases hact
      intro c hc
      rcases List.mem_append.mp hc with hc | hc
      · exact hw c hc
      · obtain rfl := List.mem_singleton.mp hc
        exact hconstruct os file compression readOnly prefetch rfl
  | getPacket i idx =>
      obtain ⟨c, hc, hact⟩ := Option.bind_eq_some_iff.mp hact
      obtain ⟨r, houtcome, hact⟩ := Option.bind_eq_some_iff.mp hact
      cases hact
      have hnext := hget c idx r.1 r.2 (hw c (List.mem_of_getElem? hc)) houtcome
      intro d hd
      rcases List.mem_or_eq_of_mem_set hd with hd | rfl
      · exact hw d hd
      · exact hnext
  | swap i j => exact exchange_forall (fun _ _ => rfl) hw hswap hact
  | moveConstruct i =>
      obtain ⟨c, hc, hact⟩ := Option.bind_eq_some_iff.mp hact
      cases hact
      obtain ⟨hnew, hold⟩ := hswap blank c ⟨rfl, hc⟩
      intro d hd
      rcases List.mem_append.mp hd with hd | hd
      · rcases List.mem_or_eq_of_mem_set hd with hd | rfl
        · exact hw d hd
        · exact hold
      · obtain rfl := List.mem_singleton.mp hd
        exact hnew
  | moveAssign i j => exact exchange_forall (fun _ _ => rfl) hw hswap hact

end Each

theorem Exchanges.sameIndex {a : Action} {c d : PcapT} (h : Exchanges w a c d)
    (hclean : Clean host z w a) : SameIndex c d := by
  cases a with
  | construct os file compression readOnly prefetch => cases h
  | getPacket i idx => cases h
  | swap i j => exact hclean c d h.1 h.2
  | moveConstruct i =>
      obtain ⟨rfl, hd⟩ := h
      exact hclean d hd
  | moveAssign i j => exact hclean c d h.1 h.2

theorem act_belongs {a : Action} (hw : ∀ c ∈ w, Belongs host c) (hclean : Clean host z w a)
    (hact : act host z w a = some w') : ∀ c ∈ w', Belongs host c := by
  apply act_forall hw _ _ _ hact
  · intro os file compression readOnly prefetch ha
    rw [ha] at hclean
    exact (construct_belongs_iff host z os file compression readOnly prefetch).mpr hclean
  · intro c idx packet next hc hget
    exact getPacket_belongs hc hget
  · intro c d h
    obtain ⟨hc, hd⟩ := h.forall (blank_belongs host) hw
    exact swap_belongs hc hd (h.sameIndex hclean)

/-- In every state of a run of clean steps the indices belong to their files;
swaps and moves between captures with one index show on each side what the
other side showed. -/
theorem run_belongs (h : Reaches (act host z) (Clean host z) [] w) :
    (∀ c ∈ w, Belongs host c) ∧
      (∀ a ∈ w, ∀ b ∈ w, SameIndex a b →
        TakesOver host (swap a b).1 b ∧ TakesOver host (swap a b).2 a) ∧
      ∀ c ∈ w, SameIndex blank c → TakesOver host (moveConstruct c).1 c := by
  refine ⟨?_, ?_, ?_⟩
  · apply h.invariant (I := fun w => ∀ c ∈ w, Belongs host c)
    · intro c hc
      cases hc
    · intro w a w' hw hclean hact
      exact act_belongs hw hclean hact
  · intro a _ b _ hsame
    exact swap_takesOver host hsame
  · intro c _ hsame
    exact (swap_takesOver host hsame).1

end Runs

def openedSample : PcapT :=
  construct .little storedZlib (opening (sampleFile .little)) "sample.pcap" .autodetect true false

theorem cleanOpening_sample :
    CleanOpening .little storedZlib (opening (sampleFile .little)) "sample.pcap" .autodetect := by
  rw [← construct_belongs_iff .little storedZlib (opening (sampleFile .little)) "sample.pcap"
    .autodetect true false]
  refine ⟨?_, ?_⟩ <;> decide +kernel

theorem run_belongs_sample :
    (∀ c ∈ [(swap openedSample openedSample).1, (swap openedSample openedSample).2],
        Belongs .little c) ∧
      (∀ a ∈ [(swap openedSample openedSample).1, (swap openedSample openedSample).2],
        ∀ b ∈ [(swap openedSample openedSample).1, (swap openedSample openedSample).2],
          SameIndex a b →
            TakesOver .little (swap a b).1 b ∧ TakesOver .little (swap a b).2 a) ∧
      ∀ c ∈ [(swap openedSample openedSample).1, (swap openedSample openedSample).2],
        SameIndex blank c → TakesOver .little (moveConstruct c).1 c := by
  let open1 : Action := .construct (opening (sampleFile .little)) "sample.pcap" .autodetect true false
  have hone : Reaches (act .little storedZlib) (Clean .little storedZlib) [] [openedSample] :=
    .next (a := open1) .start cleanOpening_sample rfl
  have htwo : Reaches (act .little storedZlib) (Clean .little storedZlib) []
      [openedSample, openedSample] :=
    .next (a := open1) hone cleanOpening_sample rfl
  refine run_belongs (.next (a := .swap 0 1) htwo ?_ rfl)
  intro a b ha hb
  cases ha
  cases hb
  exact ⟨rfl, rfl⟩

/-- A valid capture moved into a new one leaves its index behind. -/
theorem run_belongs_fails :
    Reachable (act .little storedZlib) []
        [(moveConstruct openedSample).2, (moveConstruct openedSample).1] ∧
      ¬ Belongs .little (moveConstruct openedSample).2 ∧
      (moveConstruct openedSample).1.valid = true ∧
      openedSample.packetCount = 2 ∧ (moveConstruct openedSample).1.packetCount = 0 ∧
      ¬ TakesOver .little (moveConstruct openedSample).1 openedSample := by
  refine ⟨?_, ?_, by decide +kernel, by decide +kernel, by decide +kernel, ?_⟩
  · have hone : Reachable (act .little storedZlib) [] [openedSample] :=
      Reaches.next
        (a := .construct (opening (sampleFile .little)) "sample.pcap" .autodetect true false)
        .start trivial rfl
    exact Reaches.next (a := .moveConstruct 0) hone trivial rfl
  · rintro ⟨hentries, _⟩
    revert hentries
    decide +kernel
  · rintro ⟨hcount, _⟩
    revert hcount
    decide +kernel

/-! ## Packet indices -/

def SafeAccess (host : Order) (self : PcapT) (idx : Nat) : Prop :=
  (∀ k ∈ (self.getPacket host idx).touched, k = idx ∧ k < self.packetCount) ∧
    (self.packetCount ≤ idx → (self.getPacket host idx).outcome = some (none, self))

/-- The guard lets the index one past the end through, and nothing else that
it should stop. -/
theorem safeAccess_iff (host : Order) (self : PcapT) (idx : Nat) :
    SafeAccess host self idx ↔ idx ≠ self.packetCount := by
  constructor
  · rintro ⟨htouched, _⟩ heq
    have hnone : self.packets[idx]? = none := by
      rw [heq]
      exact List.getElem?_eq_none (Nat.le_refl _)
    have hmem : idx ∈ (self.getPacket host idx).touched := by
      have hle : idx ≤ self.packets.length := Nat.le_of_eq heq
      simp [getPacket, hle, hnone]
    have hlt := (htouched idx hmem).2
    omega
  · intro hne
    by_cases hlt : idx < self.packetCount
    · have hget : self.packets[idx]? = some self.packets[idx] := List.getElem?_eq_getElem hlt
      have hle : idx ≤ self.packets.length := Nat.le_of_lt hlt
      refine ⟨?_, fun hge => absurd hlt (Nat.not_lt.mpr hge)⟩
      intro k hk
      simp only [getPacket, if_pos hle, hget, List.mem_singleton] at hk
      subst hk
      exact ⟨rfl, hlt⟩
    · have hgt : ¬ idx ≤ self.packets.length := by
        unfold packetCount at hne hlt
        omega
      have hget : self.getPacket host idx = { touched := [], outcome := some (none, self) } :=
        if_neg hgt
      rw [SafeAccess, hget]
      exact ⟨fun k hk => absurd hk List.not_mem_nil, fun _ => rfl⟩

theorem safeAccess_fails :
    openedSample.packetCount = 2 ∧ (openedSample.getPacket .little 2).touched = [2] ∧
      ¬ SafeAccess .little openedSample 2 := by
  refine ⟨by decide +kernel, by decide +kernel, ?_⟩
  rintro ⟨htouched, _⟩
  revert htouched
  decide +kernel

end LibNokogiri.Pcap
