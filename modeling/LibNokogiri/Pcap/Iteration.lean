import LibNokogiri.Pcap.Calls
import LibNokogiri.Pcap.Objects

/-! # Iteration over the packets

An iterator over a capture is a position in a fixed sequence, the results of
`get_packet`. Steps of the iterator, dereferences and calls of `get_packet` in
any order keep the two in agreement, and so do the loops from one end of the
capture to the other.
-/

namespace LibNokogiri.Pcap

open ByteCodec Framing Internal Run Loop

inductive Event
  | move (m : BiIterator.Move)
  | dereference
  | getPacket (idx : Nat)
deriving DecidableEq, Repr

def Event.moved : Event → Option BiIterator.Move
  | .move m => some m
  | _ => none

def Event.quiet : Event → Bool
  | .getPacket _ => false
  | _ => true

/-- The events are those of `core`, with calls of `get_packet` anywhere between
them; none of the calls is without a defined outcome. -/
structure Interleaved (count : Nat) (core events : List Event) : Prop where
  core : events.filter Event.quiet = core
  calls : ∀ idx, .getPacket idx ∈ events → idx ≠ count

/-! ## A position in a fixed sequence -/

/-- A position between the elements of a sequence, and what has been seen of
them, each with its place. -/
structure Tour (β : Type) where
  position : Nat
  seen : List (Nat × β) := []

namespace Tour

variable {β : Type} {count : Nat} {packet : Nat → β}

/-- A move stops at either end; there is nothing to see behind the last element. -/
def step (count : Nat) (packet : Nat → β) (t : Tour β) : Event → Option (Tour β)
  | .move .increment => some { t with position := min (t.position + 1) count }
  | .move .decrement => some { t with position := t.position - 1 }
  | .dereference =>
      if t.position < count then
        some { t with seen := t.seen ++ [(t.position, packet t.position)] }
      else none
  | .getPacket idx => if idx = count then none else some t

theorem step_cases {e : Event} {t t' : Tour β} (ht : t.position ≤ count)
    (h : step count packet t e = some t') :
    (t'.position : Int) = BiIterator.clampedWalk 0 count t.position e.moved.toList ∧
      (t'.seen = t.seen ∨
        t.position < count ∧ t'.seen = t.seen ++ [(t.position, packet t.position)]) := by
  cases e with
  | move m =>
      simp only [Event.moved, Option.toList, BiIterator.clampedWalk, List.foldl]
      cases m with
      | increment =>
          cases h
          simp only [BiIterator.Move.offset]
          exact ⟨by omega, .inl trivial⟩
      | decrement =>
          cases h
          simp only [BiIterator.Move.offset]
          exact ⟨by omega, .inl trivial⟩
  | dereference =>
      simp only [step] at h
      split at h
      · rename_i hlt
        cases h
        exact ⟨rfl, .inr ⟨hlt, rfl⟩⟩
      · cases h
  | getPacket idx =>
      simp only [step] at h
      split at h
      · cases h
      · cases h
        exact ⟨rfl, .inl rfl⟩

theorem step_le {e : Event} {t t' : Tour β} (ht : t.position ≤ count)
    (h : step count packet t e = some t') : t'.position ≤ count := by
  have hposition := (step_cases ht h).1
  cases hmoved : e.moved with
  | none =>
      rw [hmoved] at hposition
      have hsame : t'.position = t.position := Int.ofNat_inj.mp hposition
      rwa [hsame]
  | some m =>
      rw [hmoved] at hposition
      simp only [Option.toList, BiIterator.clampedWalk, List.foldl] at hposition
      omega

/-- The walk is clamped, whatever else happens, and everything seen is an
element at its place. -/
theorem perform_walk {events : List Event} {t t' : Tour β} (ht : t.position ≤ count)
    (hseen : ∀ x ∈ t.seen, x.1 < count ∧ x.2 = packet x.1)
    (h : perform (step count packet) t events = some t') :
    (t'.position : Int) =
        BiIterator.clampedWalk 0 count t.position (events.filterMap Event.moved) ∧
      ∀ x ∈ t'.seen, x.1 < count ∧ x.2 = packet x.1 := by
  induction events generalizing t with
  | nil =>
      cases h
      exact ⟨rfl, hseen⟩
  | cons e events ih =>
      obtain ⟨next, hnext, hrest⟩ := Option.bind_eq_some_iff.mp h
      obtain ⟨hposition, hlook⟩ := step_cases ht hnext
      have hmoved : (e :: events).filterMap Event.moved =
          e.moved.toList ++ events.filterMap Event.moved := by
        cases e <;> rfl
      have hsees : ∀ x ∈ next.seen, x.1 < count ∧ x.2 = packet x.1 := by
        rcases hlook with hsame | ⟨hlt, hmore⟩
        · rwa [hsame]
        · intro x hx
          rw [hmore] at hx
          rcases List.mem_append.mp hx with hx | hx
          · exact hseen x hx
          · obtain rfl := List.mem_singleton.mp hx
            exact ⟨hlt, rfl⟩
      obtain ⟨hend, hall⟩ := ih (step_le ht hnext) hsees hrest
      refine ⟨?_, hall⟩
      rw [hend, hposition, hmoved, BiIterator.clampedWalk, List.foldl_append]

theorem perform_interleaved {core events : List Event} (h : Interleaved count core events)
    (t : Tour β) : perform (step count packet) t events = perform (step count packet) t core := by
  induction events generalizing t core with
  | nil =>
      obtain rfl : [] = core := h.core
      rfl
  | cons e events ih =>
      have hcalls : ∀ idx, .getPacket idx ∈ events → idx ≠ count :=
        fun idx hmem => h.calls idx (List.mem_cons_of_mem e hmem)
      have hrest : Interleaved count (events.filter Event.quiet) events := ⟨rfl, hcalls⟩
      rw [← h.core]
      cases e with
      | getPacket idx =>
          have hne : idx ≠ count := h.calls idx List.mem_cons_self
          have hstep : step count packet t (.getPacket idx) = some t := if_neg hne
          rw [perform, hstep]
          exact ih hrest t
      | move m =>
          have hfilter : (Event.move m :: events).filter Event.quiet =
              .move m :: events.filter Event.quiet := rfl
          rw [hfilter, perform, perform]
          exact congrArg (Option.bind _) (funext (ih hrest))
      | dereference =>
          have hfilter : (Event.dereference :: events).filter Event.quiet =
              .dereference :: events.filter Event.quiet := rfl
          rw [hfilter, perform, perform]
          exact congrArg (Option.bind _) (funext (ih hrest))

theorem perform_moves (moves : List BiIterator.Move) (t : Tour β) :
    ∃ t', perform (step count packet) t (moves.map .move) = some t' := by
  induction moves generalizing t with
  | nil => exact ⟨t, rfl⟩
  | cons m moves ih =>
      cases m with
      | increment => exact ih { t with position := min (t.position + 1) count }
      | decrement => exact ih { t with position := t.position - 1 }

end Tour

/-! ## The capture behind the iterator -/

namespace PcapT

variable {host : Order} {origin later next : PcapT} {idx : Nat} {packet : Option PacketT}

/-- All that a call depends on is the same in the later capture, with or
without a file. -/
structure Alike (origin later : PcapT) : Prop where
  content : later.file.content = origin.file.content
  header : later.header = origin.header
  entries : later.packets.map PacketStorageT.entry = origin.packets.map PacketStorageT.entry

theorem Alike.length (h : origin.Alike later) : later.packets.length = origin.packets.length := by
  have hentries := congrArg List.length h.entries
  rwa [List.length_map, List.length_map] at hentries

theorem Alike.packetAt (h : origin.Alike later) (host : Order)
    (hoffsets : OffsetsBelow origin.packets) (idx : Nat) :
    later.packetAt host idx = origin.packetAt host idx := by
  have hlater : OffsetsBelow later.packets := hoffsets.of_entries h.entries
  rw [packetAt_in host later hlater, packetAt_in host origin hoffsets, h.content, h.header,
    h.entries]

theorem Alike.getPacket (h : origin.Alike later)
    (hget : (later.getPacket host idx).outcome = some (packet, next)) : origin.Alike next := by
  have hentries := (getPacket_entries hget).trans h.entries
  rcases getPacket_cases hget with rfl | ⟨storage, _, rfl⟩
  · exact h
  · exact ⟨(getStoredPacket_content host later storage).trans h.content, h.header, hentries⟩

theorem getPacket_outcome_none_iff (host : Order) (self : PcapT) (idx : Nat) :
    (self.getPacket host idx).outcome = none ↔ idx = self.packetCount := by
  unfold getPacket packetCount
  by_cases hle : idx ≤ self.packets.length
  · rw [if_pos hle]
    cases hget : self.packets[idx]? with
    | none =>
        have hge := List.getElem?_eq_none_iff.mp hget
        exact iff_of_true rfl (Nat.le_antisymm hle hge)
    | some storage =>
        have hlt := (List.getElem?_eq_some_iff.mp hget).choose
        exact iff_of_false (Option.some_ne_none _) (Nat.ne_of_lt hlt)
  · rw [if_neg hle]
    exact iff_of_false (Option.some_ne_none _) fun heq => hle (Nat.le_of_eq heq)

theorem accessor_eq_none_iff (host : Order) (self : PcapT) (idx : Nat) :
    self.accessor host idx = none ↔ self.packetCount ≤ idx := by
  rw [packetCount, ← List.getElem?_eq_none_iff]
  unfold accessor
  cases self.packets[idx]? with
  | none => exact iff_of_true rfl rfl
  | some storage => exact iff_of_false (Option.some_ne_none _) (Option.some_ne_none _)

theorem Alike.accessor (h : origin.Alike later) (host : Order)
    (hoffsets : OffsetsBelow origin.packets) (hlt : idx < origin.packetCount) :
    ∃ next, later.accessor host idx = some (origin.packetAt host idx, next) ∧
      origin.Alike next := by
  have hlater : idx < later.packets.length := by rwa [h.length]
  have hpacket := h.packetAt host hoffsets idx
  rw [← getPacket_eq_accessor hlater]
  cases houtcome : (later.getPacket host idx).outcome with
  | none =>
      have heq := (getPacket_outcome_none_iff host later idx).mp houtcome
      exact absurd heq (Nat.ne_of_lt hlater)
  | some r =>
      rw [PcapT.packetAt, houtcome] at hpacket
      rw [← hpacket]
      exact ⟨r.2, rfl, h.getPacket houtcome⟩

end PcapT

/-! ## Capture and iterator -/

structure Traversal where
  capture : PcapT
  it : BiIterator
  seen : List (Nat × Option PacketT) := []

namespace Traversal

def step (host : Order) (s : Traversal) : Event → Option Traversal
  | .move m => some { s with it := s.it.move m }
  | .dereference =>
      (s.it.deref (s.capture.accessor host)).map fun r =>
        { s with capture := r.2, seen := s.seen ++ [(s.it.current, r.1)] }
  | .getPacket idx =>
      (s.capture.getPacket host idx).outcome.map fun r => { s with capture := r.2 }

structure Shows (origin : PcapT) (s : Traversal) (t : Tour (Option PacketT)) : Prop where
  alike : origin.Alike s.capture
  walks : origin.Walks s.it
  position : s.it.current = t.position
  seen : s.seen = t.seen

variable {host : Order} {origin : PcapT}

theorem shows_start {it : BiIterator} (h : origin.Walks it) :
    Shows origin ⟨origin, it, []⟩ ⟨it.current, []⟩ :=
  ⟨⟨rfl, rfl, rfl⟩, h, rfl, rfl⟩

/-- An iterator over a capture is a position in the sequence of its packets. -/
theorem step_shows (host : Order) (hoffsets : PcapT.OffsetsBelow origin.packets) (s : Traversal)
    (t : Tour (Option PacketT)) (e : Event) (h : Shows origin s t) :
    Option.Rel (Shows origin) (s.step host e)
      (t.step origin.packetCount (origin.packetAt host) e) := by
  have hcount : s.capture.packetCount = origin.packetCount := h.alike.length
  cases e with
  | move m =>
      have hmove := s.it.move_current m
      rw [h.walks.1, h.walks.2, h.position] at hmove
      cases m with
      | increment =>
          refine .some ⟨h.alike, h.walks.increment, ?_, h.seen⟩
          simp only [BiIterator.Move.offset] at hmove
          dsimp only
          unfold PcapT.packetCount
          omega
      | decrement =>
          have hle := s.it.le_last
          rw [h.walks.2, h.position] at hle
          refine .some ⟨h.alike, h.walks.decrement, ?_, h.seen⟩
          simp only [BiIterator.Move.offset] at hmove
          dsimp only
          omega
  | dereference =>
      simp only [step, Tour.step, BiIterator.deref, h.position]
      by_cases hlt : t.position < origin.packetCount
      · obtain ⟨next, hread, hnext⟩ := h.alike.accessor host hoffsets hlt
        rw [if_pos hlt, hread, h.seen]
        exact .some ⟨hnext, h.walks, h.position, rfl⟩
      · have hge : s.capture.packetCount ≤ t.position := by
          rw [hcount]
          exact Nat.not_lt.mp hlt
        rw [if_neg hlt, (PcapT.accessor_eq_none_iff host s.capture t.position).mpr hge]
        exact .none
  | getPacket idx =>
      have hundefined := PcapT.getPacket_outcome_none_iff host s.capture idx
      rw [hcount] at hundefined
      simp only [step, Tour.step]
      cases houtcome : (s.capture.getPacket host idx).outcome with
      | none =>
          rw [if_pos (hundefined.mp houtcome)]
          exact .none
      | some r =>
          have hne : idx ≠ origin.packetCount := by
            intro heq
            rw [hundefined.mpr heq] at houtcome
            cases houtcome
          rw [if_neg hne]
          exact .some ⟨h.alike.getPacket houtcome, h.walks, h.position, h.seen⟩

/-! ## Loops over a capture -/

/-- One round of a loop that goes on until the iterator equals `bound`; the n-th
round consists of the events `events n`. -/
def visit (host : Order) (bound : BiIterator) (events : Nat → List Event) (s : Traversal) :
    Outcome Traversal (Option Traversal) :=
  if s.it.ne bound then
    match perform (step host) s (events s.seen.length) with
    | some next => .more next
    | none => .stop none
  else .stop (some s)

theorem visit_ends (place visited : Nat → Nat) {bound start : BiIterator} {core : List Event}
    {events : Nat → List Event} (hoffsets : PcapT.OffsetsBelow origin.packets)
    (hstart : origin.Walks start) (hfirst : start.current = place 0)
    (hbound : ∀ k, k ≤ origin.packetCount → (place k = bound.current ↔ k = origin.packetCount))
    (hround : ∀ k seen, k < origin.packetCount →
      perform (Tour.step origin.packetCount (origin.packetAt host)) ⟨place k, seen⟩ core =
        some ⟨place (k + 1), seen ++ [(visited k, origin.packetAt host (visited k))]⟩)
    (hevents : ∀ k, Interleaved origin.packetCount core (events k)) :
    ∃ s, run (visit host bound events) (origin.packetCount + 1) ⟨origin, start, []⟩ =
        some (some s) ∧
      s.seen = (List.range origin.packetCount).map fun k =>
        (visited k, origin.packetAt host (visited k)) := by
  let shown : Nat → List (Nat × Option PacketT) := fun k =>
    (List.range k).map fun k => (visited k, origin.packetAt host (visited k))
  have hnext : ∀ k, shown k ++ [(visited k, origin.packetAt host (visited k))] = shown (k + 1) := by
    intro k
    simp only [shown, List.range_succ, List.map_append, List.map_cons, List.map_nil]
  have hne : ∀ k s, k ≤ origin.packetCount → Shows origin s ⟨place k, shown k⟩ →
      (s.it.ne bound = true ↔ k ≠ origin.packetCount) := by
    intro k s hk hshows
    rw [Ne, ← hbound k hk, BiIterator.ne, BiIterator.eq, hshows.position]
    simp
  have hended : ∃ b, run (visit host bound events) (origin.packetCount + 1) ⟨origin, start, []⟩ =
      some b ∧ ∃ s, b = some s ∧ s.seen = shown origin.packetCount := by
    apply run_counted (I := fun k s => Shows origin s ⟨place k, shown k⟩)
    · intro k s hk hshows
      have hlen : s.seen.length = k := by
        rw [hshows.seen, List.length_map, List.length_range]
      have hperform := perform_rel (step_shows host hoffsets) (events k) hshows
      rw [Tour.perform_interleaved (hevents k), hround k _ hk, hnext] at hperform
      obtain ⟨next, htaken, hshows'⟩ := rel_right hperform rfl
      have hround := (hne k s (Nat.le_of_lt hk) hshows).mpr (Nat.ne_of_lt hk)
      refine ⟨next, ?_, hshows'⟩
      rw [visit, if_pos hround, hlen, htaken]
    · intro s hshows
      have hdone : ¬ s.it.ne bound = true := by
        rw [hne _ s (Nat.le_refl _) hshows]
        exact not_not_intro rfl
      exact ⟨some s, if_neg hdone, s, rfl, hshows.seen⟩
    · have hshows := shows_start hstart
      rwa [hfirst] at hshows
  obtain ⟨_, hrun, s, rfl, hseen⟩ := hended
  exact ⟨s, hrun, hseen⟩

theorem forward_ends {events : Nat → List Event} (hoffsets : PcapT.OffsetsBelow origin.packets)
    (hevents : ∀ k, Interleaved origin.packetCount [.dereference, .move .increment] (events k)) :
    ∃ s, run (visit host origin.end events) (origin.packetCount + 1) ⟨origin, origin.begin, []⟩ =
        some (some s) ∧
      s.seen = (List.range origin.packetCount).map fun k => (k, origin.packetAt host k) := by
  apply visit_ends id id hoffsets origin.walks_begin rfl _ _ hevents
  · intro k _
    exact Iff.rfl
  · intro k seen hk
    have hmin : min (k + 1) origin.packetCount = k + 1 := by omega
    simp only [perform, Tour.step, id, if_pos hk, Option.bind_some, hmin]

theorem backward_ends {events : Nat → List Event} (hoffsets : PcapT.OffsetsBelow origin.packets)
    (hevents : ∀ k, Interleaved origin.packetCount [.move .decrement, .dereference] (events k)) :
    ∃ s, run (visit host origin.begin events) (origin.packetCount + 1) ⟨origin, origin.end, []⟩ =
        some (some s) ∧
      s.seen = ((List.range origin.packetCount).map fun k =>
        (k, origin.packetAt host k)).reverse := by
  have hreverse : (List.range origin.packetCount).reverse =
      (List.range origin.packetCount).map fun k => origin.packetCount - 1 - k := by
    have h := @List.reverse_range' 0 origin.packetCount
    rwa [← List.range_eq_range', Nat.zero_add] at h
  rw [← List.map_reverse, hreverse, List.map_map]
  apply visit_ends (fun k => origin.packetCount - k) (fun k => origin.packetCount - 1 - k) hoffsets
    origin.walks_end rfl _ _ hevents
  · intro k hk
    have hbegin : origin.begin.current = 0 := rfl
    rw [hbegin]
    omega
  · intro k seen hk
    have hlt : origin.packetCount - k - 1 < origin.packetCount := by omega
    have hvisited : origin.packetCount - 1 - k = origin.packetCount - k - 1 := by omega
    have hplace : origin.packetCount - (k + 1) = origin.packetCount - k - 1 := by omega
    simp only [perform, Tour.step, if_pos hlt, Option.bind_some, hvisited, hplace]

end Traversal

/-! ## Every capture of a program -/

theorem PcapT.construct_offsetsBelow (host : Order) (z : Zlib) (os : Opens) (file : String)
    (compression : CaptureCompressionT) (readOnly prefetch : Bool) :
    OffsetsBelow (construct host z os file compression readOnly prefetch).packets := by
  rcases construct_cases host z os file compression readOnly prefetch with
    ⟨f, hparsed, _⟩ | hbare
  · exact hparsed.reads.offsetsBelow
  · intro storage hmem
    rw [hbare.packets] at hmem
    cases hmem

theorem act_offsetsBelow {host : Order} {z : Zlib} {w w' : World} {a : Action}
    (hw : ∀ c ∈ w, PcapT.OffsetsBelow c.packets) (hact : act host z w a = some w') :
    ∀ c ∈ w', PcapT.OffsetsBelow c.packets := by
  apply act_forall hw _ _ _ hact
  · intro os file compression readOnly prefetch _
    exact PcapT.construct_offsetsBelow host z os file compression readOnly prefetch
  · intro c idx packet next hc hget
    exact hc.of_entries (PcapT.getPacket_entries hget)
  · intro c d hexchanges
    exact hexchanges.forall (P := fun c => PcapT.OffsetsBelow c.packets)
      (fun storage hmem => absurd hmem List.not_mem_nil) hw

theorem offsetsBelow_of_reachable {host : Order} {z : Zlib} {w : World}
    (h : Reachable (act host z) [] w) : ∀ c ∈ w, PcapT.OffsetsBelow c.packets := by
  apply h.invariant (I := fun w => ∀ c ∈ w, PcapT.OffsetsBelow c.packets)
  · intro c hc
    cases hc
  · intro w a w' hw _ hact
    exact act_offsetsBelow hw hact

/-- Iteration agrees with indexing: from either end, any steps walk within the
capture, and the loops from one end to the other see what `get_packet` returns,
in order, whatever calls of `get_packet` come in between. -/
theorem iteration_agrees {host : Order} {z : Zlib} {w : World} (hw : Reachable (act host z) [] w)
    {capture : PcapT} (hcapture : capture ∈ w) :
    let count := capture.packetCount
    let packets := (List.range count).map fun k => (k, capture.packetAt host k)
    (∀ it, it = capture.begin ∨ it = capture.end →
        (∀ events s, perform (Traversal.step host) ⟨capture, it, []⟩ events = some s →
          (s.it.current : Int) =
              BiIterator.clampedWalk 0 count it.current (events.filterMap Event.moved) ∧
            s.it.current ≤ count ∧
            ∀ x ∈ s.seen, x.1 < count ∧ x.2 = capture.packetAt host x.1) ∧
          ∀ (moves : List BiIterator.Move) events, Interleaved count (moves.map .move) events →
            ∃ s, perform (Traversal.step host) ⟨capture, it, []⟩ events = some s) ∧
      (∀ events, (∀ k, Interleaved count [.dereference, .move .increment] (events k)) →
        ∃ s, run (Traversal.visit host capture.end events) (count + 1)
            ⟨capture, capture.begin, []⟩ = some (some s) ∧ s.seen = packets) ∧
      ∀ events, (∀ k, Interleaved count [.move .decrement, .dereference] (events k)) →
        ∃ s, run (Traversal.visit host capture.begin events) (count + 1)
            ⟨capture, capture.end, []⟩ = some (some s) ∧ s.seen = packets.reverse := by
  intro count packets
  have hoffsets := offsetsBelow_of_reachable hw capture hcapture
  refine ⟨fun it hit => ?_, fun events hevents => Traversal.forward_ends hoffsets hevents,
    fun events hevents => Traversal.backward_ends hoffsets hevents⟩
  have hwalks : capture.Walks it := by
    rcases hit with rfl | rfl
    · exact capture.walks_begin
    · exact capture.walks_end
  have hperform := fun events => perform_rel (Traversal.step_shows host hoffsets) events
    (Traversal.shows_start hwalks)
  constructor
  · intro events s hs
    obtain ⟨t, htour, hshows⟩ := rel_left (hperform events) hs
    have hstart := it.le_last
    have hend := s.it.le_last
    rw [hwalks.2] at hstart
    rw [hshows.walks.2] at hend
    rw [hshows.position] at hend ⊢
    rw [hshows.seen]
    obtain ⟨hwalk, hseen⟩ :=
      Tour.perform_walk hstart (fun x hx => absurd hx List.not_mem_nil) htour
    exact ⟨hwalk, hend, hseen⟩
  · intro moves events hevents
    obtain ⟨t, htour⟩ :=
      @Tour.perform_moves _ count (capture.packetAt host) moves ⟨it.current, []⟩
    rw [← Tour.perform_interleaved hevents] at htour
    obtain ⟨s, hs, _⟩ := rel_right (hperform events) htour
    exact ⟨s, hs⟩

theorem iteration_agrees_sample :
    let events := fun _ => [Event.getPacket 1, .dereference, .getPacket 0, .move .increment]
    ∃ s, run (Traversal.visit .little openedSample.end events) (openedSample.packetCount + 1)
        ⟨openedSample, openedSample.begin, []⟩ = some (some s) ∧
      s.seen = (List.range openedSample.packetCount).map fun k =>
        (k, openedSample.packetAt .little k) := by
  intro events
  have hw : Reachable (act .little storedZlib) [] [openedSample] :=
    Reaches.next
      (a := .construct (opening (sampleFile .little)) "sample.pcap" .autodetect true false)
      .start trivial rfl
  have hcount : openedSample.packetCount = 2 := by decide +kernel
  apply (iteration_agrees hw List.mem_cons_self).2.1 events
  intro k
  refine ⟨rfl, ?_⟩
  intro idx hidx
  rw [hcount]
  have hcases : idx = 1 ∨ idx = 0 := by simpa [events] using hidx
  omega

end LibNokogiri.Pcap
