/-! # While loops with an explicit body

A loop body either asks for another iteration or stops with a result. The
loop is run by a fuelled interpreter, and a measure that every further
iteration decreases supplies the fuel, so the interpreter never runs dry.
Everything proved about a loop elsewhere goes through `Ends`, the big-step
meaning of the `while` statement, which does not mention fuel.
-/

namespace Loop

inductive Outcome (σ β : Type)
  | more (s : σ)
  | stop (b : β)

variable {σ β : Type}

def run (body : σ → Outcome σ β) : Nat → σ → Option β
  | 0, _ => none
  | fuel + 1, s =>
      match body s with
      | .more s' => run body fuel s'
      | .stop b => some b

inductive Ends (body : σ → Outcome σ β) : σ → β → Prop
  | stop {s : σ} {b : β} (h : body s = .stop b) : Ends body s b
  | more {s s' : σ} {b : β} (h : body s = .more s') (rest : Ends body s' b) : Ends body s b

theorem Ends.deterministic {body : σ → Outcome σ β} {s : σ} {b b' : β}
    (h : Ends body s b) (h' : Ends body s b') : b = b' := by
  induction h with
  | stop hb =>
      cases h' with
      | stop hb' => rw [hb] at hb'; exact Outcome.stop.inj hb'
      | more hb' _ => rw [hb] at hb'; cases hb'
  | more hb _ ih =>
      cases h' with
      | stop hb' => rw [hb] at hb'; cases hb'
      | more hb' rest' =>
          rw [hb] at hb'
          cases hb'
          exact ih rest'

theorem ends_of_run {body : σ → Outcome σ β} {fuel : Nat} {s : σ} {b : β}
    (h : run body fuel s = some b) : Ends body s b := by
  induction fuel generalizing s with
  | zero => cases h
  | succ fuel ih =>
      unfold run at h
      cases hb : body s with
      | more s' =>
          rw [hb] at h
          exact .more hb (ih h)
      | stop b' =>
          rw [hb] at h
          cases h
          exact .stop hb

/-- A measure that drops on every further iteration bounds the number of them. -/
theorem run_isSome {body : σ → Outcome σ β} {measure : σ → Nat}
    (decreases : ∀ s s', body s = .more s' → measure s' < measure s)
    (s : σ) (fuel : Nat) (h : measure s < fuel) : (run body fuel s).isSome := by
  induction fuel generalizing s with
  | zero => omega
  | succ fuel ih =>
      unfold run
      cases hb : body s with
      | more s' =>
          have hlt := decreases s s' hb
          exact ih s' (by omega)
      | stop b => rfl

/-- Run a loop whose body decreases `measure`. -/
def loop (body : σ → Outcome σ β) (measure : σ → Nat)
    (decreases : ∀ s s', body s = .more s' → measure s' < measure s) (s : σ) : β :=
  (run body (measure s + 1) s).get (run_isSome decreases s _ (Nat.lt_succ_self _))

section Rules

variable {body : σ → Outcome σ β} {measure : σ → Nat}
  {decreases : ∀ s s', body s = .more s' → measure s' < measure s}

theorem loop_ends (s : σ) : Ends body s (loop body measure decreases s) :=
  ends_of_run (Option.some_get _).symm

theorem loop_eq_of_ends {s : σ} {b : β} (h : Ends body s b) :
    loop body measure decreases s = b :=
  (loop_ends s).deterministic h

theorem loop_eq (s : σ) :
    loop body measure decreases s =
      match body s with
      | .more s' => loop body measure decreases s'
      | .stop b => b := by
  cases hb : body s with
  | more s' => exact loop_eq_of_ends (.more hb (loop_ends s'))
  | stop b => exact loop_eq_of_ends (.stop hb)

theorem run_eq_loop {rounds : σ → Nat}
    (fewer : ∀ s s', body s = .more s' → rounds s' < rounds s) (s : σ) :
    run body (rounds s + 1) s = some (loop body measure decreases s) := by
  have hrun := (Option.some_get (run_isSome fewer s _ (Nat.lt_succ_self _))).symm
  rw [hrun, loop_eq_of_ends (ends_of_run hrun)]

end Rules

/-- A loop that counts its rounds and may stop before the last of them: `I` says
where it stands after each of them. -/
theorem run_search {body : σ → Outcome σ β} {I : Nat → σ → Prop} {post : β → Prop} {rounds : Nat}
    (round : ∀ k s, k < rounds → I k s →
      (∃ s', body s = .more s' ∧ I (k + 1) s') ∨ ∃ b, body s = .stop b ∧ post b)
    (stop : ∀ s, I rounds s → ∃ b, body s = .stop b ∧ post b) {s : σ} (hs : I 0 s) :
    ∃ b, run body (rounds + 1) s = some b ∧ post b := by
  have hfrom : ∀ left k s, k + left = rounds → I k s →
      ∃ b, run body (left + 1) s = some b ∧ post b := by
    intro left
    induction left with
    | zero =>
        intro k s hk hinv
        obtain rfl : k = rounds := hk
        obtain ⟨b, hb, hpost⟩ := stop s hinv
        exact ⟨b, by rw [run, hb], hpost⟩
    | succ left ih =>
        intro k s hk hinv
        rcases round k s (by omega) hinv with ⟨s', hs', hinv'⟩ | ⟨b, hb, hpost⟩
        · obtain ⟨b, hb, hpost⟩ := ih (k + 1) s' (by omega) hinv'
          exact ⟨b, by rw [run, hs']; exact hb, hpost⟩
        · exact ⟨b, by rw [run, hb], hpost⟩
  exact hfrom rounds 0 s (Nat.zero_add rounds) hs

theorem run_counted {body : σ → Outcome σ β} {I : Nat → σ → Prop} {post : β → Prop} {rounds : Nat}
    (more : ∀ k s, k < rounds → I k s → ∃ s', body s = .more s' ∧ I (k + 1) s')
    (stop : ∀ s, I rounds s → ∃ b, body s = .stop b ∧ post b) {s : σ} (hs : I 0 s) :
    ∃ b, run body (rounds + 1) s = some b ∧ post b :=
  run_search (fun k s hk hinv => .inl (more k s hk hinv)) stop hs

/-- The loop entered in `init` comes by `s`. -/
inductive Visits (body : σ → Outcome σ β) (init : σ) : σ → Prop
  | start : Visits body init init
  | more {s s' : σ} (before : Visits body init s) (h : body s = .more s') : Visits body init s'

def Outcome.All (inv : σ → Prop) (post : β → Prop) : Outcome σ β → Prop
  | .more s => inv s
  | .stop b => post b

/-- What every iteration keeps and every stop turns into `post` holds of the
final result of any terminating run. -/
theorem Ends.invariant {body : σ → Outcome σ β} {inv : σ → Prop} {post : β → Prop}
    (step : ∀ s, inv s → (body s).All inv post) {s : σ} {b : β} (h : Ends body s b)
    (hs : inv s) : post b := by
  induction h with
  | stop hb =>
      have hstep := step _ hs
      rwa [hb] at hstep
  | more hb _ ih =>
      have hstep := step _ hs
      rw [hb] at hstep
      exact ih hstep

theorem Visits.invariant {body : σ → Outcome σ β} {inv : σ → Prop} {post : β → Prop}
    (step : ∀ s, inv s → (body s).All inv post) {init s : σ} (h : Visits body init s)
    (hinit : inv init) : inv s := by
  induction h with
  | start => exact hinit
  | more _ hb ih =>
      have hstep := step _ ih
      rwa [hb] at hstep

end Loop
