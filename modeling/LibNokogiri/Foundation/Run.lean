/-! # Runs of a system that takes labelled steps

A step function says what an action does in a state, if it is defined there.
`Reaches` collects the states at the ends of runs all of whose steps meet a
condition, so that a law which holds under a condition on single steps is
stated about whole runs.
-/

namespace Run

variable {σ α : Type} {step : σ → α → Option σ} {ok : σ → α → Prop} {init : σ}

inductive Reaches (step : σ → α → Option σ) (ok : σ → α → Prop) (init : σ) : σ → Prop
  | start : Reaches step ok init init
  | next {s s' : σ} {a : α} (run : Reaches step ok init s) (meets : ok s a)
      (taken : step s a = some s') : Reaches step ok init s'

abbrev Reachable (step : σ → α → Option σ) (init : σ) : σ → Prop :=
  Reaches step (fun _ _ => True) init

/-- What holds at first and survives every step that meets the condition holds
in every state reached. -/
theorem Reaches.invariant {I : σ → Prop} (first : I init)
    (keeps : ∀ s a s', I s → ok s a → step s a = some s' → I s') {s : σ}
    (h : Reaches step ok init s) : I s := by
  induction h with
  | start => exact first
  | next _ meets taken ih => exact keeps _ _ _ ih meets taken

def perform (step : σ → α → Option σ) : σ → List α → Option σ
  | s, [] => some s
  | s, a :: as => (step s a).bind fun s' => perform step s' as

def Meets (step : σ → α → Option σ) (ok : σ → α → Prop) : σ → List α → Prop
  | _, [] => True
  | s, a :: as =>
      ok s a ∧
        match step s a with
        | some s' => Meets step ok s' as
        | none => True

theorem Meets.cons {s : σ} {a : α} {as : List α} (hok : ok s a)
    (hrest : ∀ s', step s a = some s' → Meets step ok s' as) : Meets step ok s (a :: as) := by
  refine ⟨hok, ?_⟩
  cases hstep : step s a with
  | none => trivial
  | some s' => exact hrest s' hstep

theorem Meets.tail {s s' : σ} {a : α} {as : List α} (h : Meets step ok s (a :: as))
    (hstep : step s a = some s') : Meets step ok s' as := by
  have htail := h.2
  rwa [hstep] at htail

theorem Reaches.perform {as : List α} {s s' : σ} (h : Reaches step ok init s)
    (hmeets : Meets step ok s as) (hperform : perform step s as = some s') :
    Reaches step ok init s' := by
  induction as generalizing s with
  | nil =>
      cases hperform
      exact h
  | cons a as ih =>
      obtain ⟨t, htaken, hrest⟩ := Option.bind_eq_some_iff.mp hperform
      exact ih (h.next hmeets.1 htaken) (hmeets.tail htaken) hrest

theorem Reachable.perform {as : List α} {s s' : σ} (h : Reachable step init s)
    (hperform : perform step s as = some s') : Reachable step init s' := by
  induction as generalizing s with
  | nil =>
      cases hperform
      exact h
  | cons a as ih =>
      unfold Run.perform at hperform
      cases htaken : step s a with
      | none => simp [htaken] at hperform
      | some t =>
          rw [htaken] at hperform
          exact ih (h.next trivial htaken) hperform

section Correspondence

variable {τ : Type} {step' : τ → α → Option τ} {R : σ → τ → Prop} {o : Option σ} {o' : Option τ}

theorem rel_left (h : Option.Rel R o o') {s : σ} (hs : o = some s) : ∃ t, o' = some t ∧ R s t := by
  rw [hs] at h
  cases h with
  | some h => exact ⟨_, rfl, h⟩

theorem rel_right (h : Option.Rel R o o') {t : τ} (ht : o' = some t) : ∃ s, o = some s ∧ R s t := by
  rw [ht] at h
  cases h with
  | some h => exact ⟨_, rfl, h⟩

/-- Two systems whose single steps correspond take the same actions alike, and
where one has no step the other has none. -/
theorem perform_rel (corresponds : ∀ s t a, R s t → Option.Rel R (step s a) (step' t a))
    (as : List α) {s : σ} {t : τ} (h : R s t) :
    Option.Rel R (perform step s as) (perform step' t as) := by
  induction as generalizing s t with
  | nil => exact .some h
  | cons a as ih =>
      have hstep := corresponds s t a h
      unfold perform
      generalize step s a = o at hstep ⊢
      generalize step' t a = o' at hstep ⊢
      cases hstep with
      | none => exact .none
      | some h' => exact ih h'

end Correspondence

/-! ## Systems that answer -/

section Answers

variable {ρ τ : Type} {serve : σ → α → Option (ρ × σ)} {serve' : τ → α → Option (ρ × τ)}

def transcript (serve : σ → α → Option (ρ × σ)) : σ → List α → Option (List ρ × σ)
  | s, [] => some ([], s)
  | s, a :: as =>
      (serve s a).bind fun r => (transcript serve r.2 as).map fun rest => (r.1 :: rest.1, rest.2)

/-- A system seen through `view` answers as the system of the views does, as
long as the requests are proper; `I` holds throughout the run. -/
theorem transcript_view (view : σ → τ) {I : σ → Prop} {proper : α → Prop}
    (keeps : ∀ s a r, I s → proper a → serve s a = some r → I r.2)
    (square : ∀ s a, I s → proper a → (serve s a).map (Prod.map id view) = serve' (view s) a)
    {s : σ} (hs : I s) {as : List α} (has : ∀ a ∈ as, proper a) :
    (transcript serve s as).map (Prod.map id view) = transcript serve' (view s) as := by
  induction as generalizing s with
  | nil => rfl
  | cons a as ih =>
      have ha := has a List.mem_cons_self
      have hrest : ∀ b ∈ as, proper b := fun b hb => has b (List.mem_cons_of_mem a hb)
      unfold transcript
      rw [← square s a hs ha]
      cases hserve : serve s a with
      | none => rfl
      | some r =>
          have htail := ih (keeps s a r hs ha hserve) hrest
          simp only [Option.bind_some, Option.map_some, Prod.map, id]
          rw [← htail, Option.map_map, Option.map_map]
          rfl

theorem transcript_map {g : α → α} (halike : ∀ s a, serve s (g a) = serve s a) (s : σ)
    (as : List α) : transcript serve s (as.map g) = transcript serve s as := by
  induction as generalizing s with
  | nil => rfl
  | cons a as ih =>
      rw [List.map_cons, transcript, transcript, halike]
      exact congrArg (Option.bind (serve s a)) (funext fun r => by rw [ih])

end Answers

/-- When every step against the condition leaves a mark that no step removes, a
run to an unmarked state met the condition throughout. -/
theorem Reachable.unmarked {M : σ → Prop}
    (kept : ∀ s a s', step s a = some s' → M s → M s')
    (made : ∀ s a s', step s a = some s' → ¬ ok s a → M s') {s : σ}
    (h : Reachable step init s) (hs : ¬ M s) : Reaches step ok init s := by
  induction h with
  | start => exact .start
  | @next s s' a _ _ taken ih =>
      have hbefore : ¬ M s := fun hm => hs (kept s a s' taken hm)
      by_cases hok : ok s a
      · exact .next (ih hbefore) hok taken
      · exact absurd (made s a s' taken hok) hs

end Run
