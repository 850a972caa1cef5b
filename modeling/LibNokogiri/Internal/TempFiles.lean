import LibNokogiri.Foundation.Holdings
import LibNokogiri.Internal.Ownership

/-! # Who removes a temporary file

A `fd_t` that was opened as temporary removes its file when it is destroyed,
right after it has closed the descriptor. Swaps and moves hand this duty on
together with the descriptor, a duplicate never takes it over, and it ends
without the file being removed when the object is told to forget its
descriptor.
-/

namespace LibNokogiri.Internal

open Holdings Run

inductive ExitCall
  | close (fd : Int)
  | remove (filename : String)
deriving DecidableEq

def ExitCall.closed : ExitCall → Option Int
  | .close fd => some fd
  | .remove _ => none

namespace FdT

def ofInt (fd : Int) : FdT Int := { fd }

def invalidate (self : FdT Int) : FdT Int := { self with fd := -1 }

def destructor (self : FdT Int) : List ExitCall :=
  if self.fd ≠ -1 then
    .close self.fd :: (if self.temp then [.remove self.filename] else [])
  else []

end FdT

/-- `fs::path::operator /` for a relative path. A directory that ends in a
separator gets no second one. -/
def joinPath (directory file : String) : String :=
  match directory.toList.getLast? with
  | none | some '/' => directory ++ file
  | some _ => directory ++ "/" ++ file

/-- The `fd_t` objects of a process and what became of the descriptors. These
are numbered in the order they are opened; `opened` lists the file of each one
that was opened as temporary. -/
structure Handles where
  opened : List (Option String) := []
  objects : List (FdT Int) := []
  abandoned : List Int := []
  calls : List ExitCall := []
deriving DecidableEq

namespace Handles

inductive Action
  | default
  | openFile (file : String) (temp ok : Bool)
  | maketemp (directory random ext : String) (ok : Bool)
  | dup (i : Nat) (ok : Bool)
  | invalidate (i : Nat)
  | moveConstruct (i : Nat)
  | moveAssign (i j : Nat)
  | swap (i j : Nat)
  | destroy (i : Nat)

def add (self : Handles) (object : FdT Int) : Handles :=
  { self with objects := self.objects ++ [object] }

/-- A system call that returns a new descriptor, or -1. -/
def obtain (self : Handles) (temporary : Option String) (ok : Bool) : Int × Handles :=
  if ok then (self.opened.length, { self with opened := self.opened ++ [temporary] })
  else (-1, self)

def openFile (self : Handles) (file : String) (temp ok : Bool) : Handles :=
  let r := self.obtain (if temp then some file else none) ok
  r.2.add { fd := r.1, temp, filename := file }

/-- `maketemp(flags, mode, ext)`, the generator having drawn `random`. -/
def maketemp (self : Handles) (directory random ext : String) (ok : Bool) : Handles :=
  self.openFile (joinPath directory random ++ ext) true ok

def exchange (self : Handles) (i j : Nat) : Option Handles := do
  let a ← self.objects[i]?
  let b ← self.objects[j]?
  some { self with
    objects := (self.objects.set i (FdT.swap a b).1).set j (FdT.swap a b).2 }

/-- The process after an action; none where an object does not exist. -/
def step (self : Handles) : Action → Option Handles
  | .default => some (self.add FdT.default)
  | .openFile file temp ok => some (self.openFile file temp ok)
  | .maketemp directory random ext ok => some (self.maketemp directory random ext ok)
  | .dup i ok => do
      let o ← self.objects[i]?
      -- there is no duplicate of -1
      let r := self.obtain none (ok && o.fd != -1)
      some (r.2.add (FdT.ofInt r.1))
  | .invalidate i => do
      let o ← self.objects[i]?
      some { self with
        objects := self.objects.set i o.invalidate
        abandoned := self.abandoned ++ Object.closingFd o }
  | .moveConstruct i => do
      let o ← self.objects[i]?
      some ({ self with
        objects := self.objects.set i (FdT.moveConstruct o).2 }.add (FdT.moveConstruct o).1)
  | .moveAssign i j => self.exchange i j
  | .swap i j => self.exchange i j
  | .destroy i => do
      let o ← self.objects[i]?
      some { self with
        objects := self.objects.eraseIdx i, calls := self.calls ++ o.destructor }

/-! ## What becomes of a descriptor -/

def numbers (count : Nat) : List Int := (List.range count).map Int.ofNat

/-- The file that the descriptor was opened for as temporary. -/
def temporaryOf (opened : List (Option String)) (fd : Int) : Option String :=
  opened[fd.toNat]?.join

/-- The calls for a descriptor that is done with. -/
def farewell (opened : List (Option String)) (fd : Int) : List ExitCall :=
  .close fd :: (temporaryOf opened fd).toList.map .remove

def closed (self : Handles) : List Int := self.calls.filterMap ExitCall.closed

/-- Every descriptor has been closed, has been abandoned or is held by one
object, the calls so far are those for the closed ones, one after another, and
an object knows whether its file is temporary. -/
structure Accounted (s : Handles) : Prop where
  fates : (s.closed ++ s.abandoned ++ held Object.closingFd s.objects).Perm
    (numbers s.opened.length)
  calls : s.calls = s.closed.flatMap (farewell s.opened)
  named : ∀ o ∈ s.objects, o.fd ≠ -1 →
    temporaryOf s.opened o.fd = if o.temp then some o.filename else none

theorem mem_numbers {count : Nat} {fd : Int} : fd ∈ numbers count ↔ 0 ≤ fd ∧ fd < count := by
  rw [numbers, List.mem_map]
  constructor
  · rintro ⟨n, hn, rfl⟩
    have hlt := List.mem_range.mp hn
    exact ⟨Int.natCast_nonneg n, Int.ofNat_lt.mpr hlt⟩
  · rintro ⟨hlow, hhigh⟩
    exact ⟨fd.toNat, List.mem_range.mpr (by omega), Int.toNat_of_nonneg hlow⟩

theorem numbers_succ (count : Nat) : numbers (count + 1) = numbers count ++ [(count : Int)] := by
  simp [numbers, List.range_succ]

theorem temporaryOf_append {opened : List (Option String)} {fd : Int}
    (h : fd ∈ numbers opened.length) (t : Option String) :
    temporaryOf (opened ++ [t]) fd = temporaryOf opened fd := by
  have hlt := mem_numbers.mp h
  rw [temporaryOf, List.getElem?_append_left (by omega), temporaryOf]

section Steps

variable {s s' : Handles}

theorem closed_destructor (o : FdT Int) :
    o.destructor.filterMap ExitCall.closed = Object.closingFd o := by
  unfold FdT.destructor Object.closingFd
  by_cases h : o.fd = -1
  · simp [h]
  · cases o.temp <;> simp [h, ExitCall.closed]

theorem Accounted.mem_numbers (h : s.Accounted) {o : FdT Int} (ho : o ∈ s.objects)
    (hfd : o.fd ≠ -1) : o.fd ∈ numbers s.opened.length := by
  apply h.fates.mem_iff.mp
  apply List.mem_append_right
  rw [mem_held]
  exact ⟨o, ho, by simp [Object.closingFd, hfd]⟩

theorem Accounted.destructor (h : s.Accounted) {o : FdT Int} (ho : o ∈ s.objects) :
    o.destructor = (Object.closingFd o).flatMap (farewell s.opened) := by
  unfold FdT.destructor Object.closingFd
  by_cases hfd : o.fd = -1
  · simp [hfd]
  · have hname := h.named o ho hfd
    cases htemp : o.temp <;> simp [hfd, farewell, hname, htemp]

theorem start_accounted : ({} : Handles).Accounted :=
  ⟨.refl _, rfl, fun _ ho => absurd ho List.not_mem_nil⟩

theorem Accounted.rearranged (h : s.Accounted) {objects : List (FdT Int)}
    (hheld : (held Object.closingFd objects).Perm (held Object.closingFd s.objects))
    (hnamed : ∀ o ∈ objects, o ∈ s.objects ∨ o.fd = -1) :
    ({ s with objects } : Handles).Accounted := by
  refine ⟨(hheld.append_left _).trans h.fates, h.calls, ?_⟩
  intro o ho hfd
  rcases hnamed o ho with hold | hnone
  · exact h.named o hold hfd
  · exact absurd hnone hfd

theorem Accounted.add_closed (h : s.Accounted) {o : FdT Int} (hfd : o.fd = -1) :
    (s.add o).Accounted := by
  apply h.rearranged
  · rw [held_append, Object.closingFd, if_pos hfd, List.append_nil]
  · intro p hp
    rcases List.mem_append.mp hp with hp | hp
    · exact .inl hp
    · obtain rfl := List.mem_singleton.mp hp
      exact .inr hfd

theorem Accounted.obtain (h : s.Accounted) (temporary : Option String) (ok : Bool) {o : FdT Int}
    (hfd : o.fd = (s.obtain temporary ok).1)
    (hname : temporary = if o.temp then some o.filename else none) :
    ((s.obtain temporary ok).2.add o).Accounted := by
  cases ok with
  | false => exact h.add_closed hfd
  | true =>
      have hfd : o.fd = (s.opened.length : Int) := hfd
      have hne : o.fd ≠ -1 := by omega
      refine ⟨?_, ?_, ?_⟩
      · simp only [Handles.obtain, if_true, add, held_append, Object.closingFd, if_neg hne,
          List.length_append, List.length_singleton, numbers_succ, ← hfd]
        rw [← List.append_assoc]
        exact h.fates.append_right _
      · have hcalls : ∀ fd ∈ s.closed, farewell (s.opened ++ [temporary]) fd =
            farewell s.opened fd := by
          intro fd hmem
          have hold : fd ∈ numbers s.opened.length := by
            apply h.fates.mem_iff.mp
            rw [List.append_assoc]
            exact List.mem_append_left _ hmem
          rw [farewell, temporaryOf_append hold, farewell]
        exact h.calls.trans (congrArg List.flatten (List.map_congr_left hcalls).symm)
      · intro p hp hpfd
        rcases List.mem_append.mp hp with hp | hp
        · have hold := temporaryOf_append (h.mem_numbers hp hpfd) temporary
          exact hold.trans (h.named p hp hpfd)
        · obtain rfl := List.mem_singleton.mp hp
          have hlast : temporaryOf (s.opened ++ [temporary]) p.fd = temporary := by
            simp [temporaryOf, hfd]
          exact hlast.trans hname

theorem Accounted.exchange (h : s.Accounted) {i j : Nat} (hex : s.exchange i j = some s') :
    s'.Accounted := by
  obtain ⟨a, ha, hex⟩ := Option.bind_eq_some_iff.mp hex
  obtain ⟨b, hb, hex⟩ := Option.bind_eq_some_iff.mp hex
  cases hex
  apply h.rearranged (held_exchange ha hb rfl rfl)
  intro o ho
  left
  rcases List.mem_or_eq_of_mem_set ho with ho | rfl
  · rcases List.mem_or_eq_of_mem_set ho with ho | rfl
    · exact ho
    · exact List.mem_of_getElem? hb
  · exact List.mem_of_getElem? ha

theorem Accounted.moveConstruct (h : s.Accounted) {i : Nat} {o : FdT Int}
    (hget : s.objects[i]? = some o) :
    ({ s with objects := s.objects.set i FdT.default }.add o).Accounted := by
  apply h.rearranged (held_move hget rfl rfl)
  intro p hp
  rcases List.mem_append.mp hp with hp | hp
  · rcases List.mem_or_eq_of_mem_set hp with hp | rfl
    · exact .inl hp
    · exact .inr rfl
  · obtain rfl := List.mem_singleton.mp hp
    exact .inl (List.mem_of_getElem? hget)

theorem Accounted.invalidate (h : s.Accounted) {i : Nat} {o : FdT Int}
    (hget : s.objects[i]? = some o) :
    ({ s with
      objects := s.objects.set i o.invalidate
      abandoned := s.abandoned ++ Object.closingFd o } : Handles).Accounted := by
  have hheld := @held_set _ _ Object.closingFd _ _ _ hget o.invalidate
  refine ⟨?_, h.calls, ?_⟩
  · dsimp only
    rw [List.append_assoc, List.append_assoc]
    have hrest : (Object.closingFd o ++ held Object.closingFd (s.objects.set i o.invalidate)).Perm
        (held Object.closingFd s.objects) := hheld
    exact (List.Perm.append_left _ (hrest.append_left _)).trans
      (by rw [← List.append_assoc]; exact h.fates)
  · intro p hp hfd
    rcases List.mem_or_eq_of_mem_set hp with hp | rfl
    · exact h.named p hp hfd
    · exact absurd rfl hfd

theorem Accounted.destroy (h : s.Accounted) {i : Nat} {o : FdT Int}
    (hget : s.objects[i]? = some o) :
    ({ s with
      objects := s.objects.eraseIdx i
      calls := s.calls ++ o.destructor } : Handles).Accounted := by
  have hclosed : ({ s with
      objects := s.objects.eraseIdx i
      calls := s.calls ++ o.destructor } : Handles).closed = s.closed ++ Object.closingFd o := by
    rw [closed, List.filterMap_append, closed_destructor]
    rfl
  refine ⟨?_, ?_, ?_⟩
  · rw [hclosed]
    have hheld := @held_eraseIdx _ _ Object.closingFd _ _ _ hget
    have hturn : (s.closed ++ Object.closingFd o ++ s.abandoned).Perm
        (s.closed ++ s.abandoned ++ Object.closingFd o) := by
      rw [List.append_assoc, List.append_assoc]
      exact List.perm_append_comm.append_left _
    refine (hturn.append_right _).trans ?_
    rw [List.append_assoc (s.closed ++ s.abandoned)]
    exact (hheld.append_left _).trans h.fates
  · rw [hclosed, List.flatMap_append]
    exact congrArg₂ (· ++ ·) h.calls (h.destructor (List.mem_of_getElem? hget))
  · intro p hp hfd
    exact h.named p (List.mem_of_mem_eraseIdx hp) hfd

theorem step_accounted {a : Action} (h : s.Accounted) (hstep : s.step a = some s') :
    s'.Accounted := by
  have hopen : ∀ (file : String) (temp ok : Bool), (s.openFile file temp ok).Accounted := by
    intro file temp ok
    apply h.obtain _ _ rfl
    cases temp <;> rfl
  cases a with
  | default =>
      cases hstep
      exact h.add_closed rfl
  | openFile file temp ok =>
      cases hstep
      exact hopen file temp ok
  | maketemp directory random ext ok =>
      cases hstep
      exact hopen (joinPath directory random ++ ext) true ok
  | dup i ok =>
      obtain ⟨o, _, hstep⟩ := Option.bind_eq_some_iff.mp hstep
      cases hstep
      exact h.obtain none _ rfl rfl
  | invalidate i =>
      obtain ⟨o, hget, hstep⟩ := Option.bind_eq_some_iff.mp hstep
      cases hstep
      exact h.invalidate hget
  | moveConstruct i =>
      obtain ⟨o, hget, hstep⟩ := Option.bind_eq_some_iff.mp hstep
      cases hstep
      exact h.moveConstruct hget
  | moveAssign i j => exact h.exchange hstep
  | swap i j => exact h.exchange hstep
  | destroy i =>
      obtain ⟨o, hget, hstep⟩ := Option.bind_eq_some_iff.mp hstep
      cases hstep
      exact h.destroy hget

theorem reachable_accounted (h : Reachable step {} s) : s.Accounted := by
  apply h.invariant (I := Accounted) start_accounted
  intro s a s' haccounted _ hstep
  exact step_accounted haccounted hstep

/-! ## Every temporary file is removed once -/

theorem map_temporaryOf (opened : List (Option String)) :
    (numbers opened.length).map (temporaryOf opened) = opened := by
  apply List.ext_getElem
  · simp [numbers]
  · intro n hn hn'
    simp [numbers, temporaryOf, hn']

theorem count_farewell (opened : List (Option String)) (fds : List Int) (file : String) :
    (fds.flatMap (farewell opened)).count (.remove file) =
      (fds.map (temporaryOf opened)).count (some file) := by
  induction fds with
  | nil => rfl
  | cons fd fds ih =>
      rw [List.flatMap_cons, List.count_append, ih, List.map_cons, List.count_cons]
      cases htemporary : temporaryOf opened fd with
      | none => simp [farewell, htemporary]
      | some name =>
          by_cases hname : name = file
          · simp [farewell, htemporary, hname, Nat.add_comm]
          · simp [farewell, htemporary, hname]

/-- In every state of a run each descriptor has one fate. The calls of the
destructors are the closes of the descriptors they are done with, each followed
by the removal of the file if it was opened as temporary, and by no other
removal. So the removals made of a file, those that an object still owes and
those that were given up are together as many as the temporary files opened
under its name. -/
theorem temporaries_removed (h : Reachable step {} s) :
    (s.closed ++ s.abandoned ++ held Object.closingFd s.objects).Perm (numbers s.opened.length) ∧
      s.calls = s.closed.flatMap (farewell s.opened) ∧
      ∀ file, s.calls.count (.remove file) +
        ((s.abandoned ++ held Object.closingFd s.objects).map (temporaryOf s.opened)).count
          (some file) = s.opened.count (some file) := by
  have haccounted := reachable_accounted h
  refine ⟨haccounted.fates, haccounted.calls, ?_⟩
  intro file
  have hfates := haccounted.fates.map (temporaryOf s.opened)
  rw [map_temporaryOf, List.append_assoc, List.map_append] at hfates
  rw [← hfates.count_eq, List.count_append, haccounted.calls, count_farewell]

end Steps

def temporaryRun : List Action :=
  [.maketemp "/tmp" "Rq3fXw0pTz8LmBv1" ".pcap" true, .default, .moveAssign 1 0, .dup 1 true,
    .moveConstruct 1, .openFile "sample.pcap" false true, .swap 3 4, .destroy 4, .destroy 0,
    .destroy 2]

theorem temporaries_removed_sample :
    ∃ s, perform step {} temporaryRun = some s ∧
      (s.closed ++ s.abandoned ++ held Object.closingFd s.objects).Perm (numbers s.opened.length) ∧
      s.calls = s.closed.flatMap (farewell s.opened) ∧
      ∀ file, s.calls.count (.remove file) +
        ((s.abandoned ++ held Object.closingFd s.objects).map (temporaryOf s.opened)).count
          (some file) = s.opened.count (some file) := by
  have hrun : perform step {} temporaryRun = some
      { opened := [some "/tmp/Rq3fXw0pTz8LmBv1.pcap", none, none]
        objects := [FdT.default, { fd := 1 }]
        calls := [.close 0, .remove "/tmp/Rq3fXw0pTz8LmBv1.pcap", .close 2] } := by decide
  exact ⟨_, hrun, temporaries_removed (Reachable.perform .start hrun)⟩

end Handles

end LibNokogiri.Internal
