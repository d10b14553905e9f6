import Mathlib

/-! Runs of a partial step function whose steps all meet a condition on the state before them. -/

namespace Runs

variable {S E : Type*}

inductive Along (step : S → E → Option S) (K : S → E → Prop) : S → List E → S → Prop
  | nil (s : S) : Along step K s [] s
  | cons {s s' t : S} {e : E} {es : List E} :
      K s e → step s e = some s' → Along step K s' es t → Along step K s (e :: es) t

def exec (step : S → E → Option S) (K : S → E → Prop) [∀ s e, Decidable (K s e)] :
    S → List E → Option S
  | s, [] => some s
  | s, e :: es => if K s e then (step s e).bind fun s' => exec step K s' es else none

variable {step : S → E → Option S} {K K' : S → E → Prop} {s t u : S} {e : E} {es es' : List E}

theorem of_guard {p : Prop} [Decidable p] {α : Type*} {a b : α}
    (h : (if p then some a else none) = some b) : p ∧ a = b := by
  split at h
  · exact ⟨‹_›, Option.some.inj h⟩
  · cases h

theorem along_of_exec [∀ s e, Decidable (K s e)] (h : exec step K s es = some t) : Along step K s es t := by
  induction es generalizing s with
  | nil =>
    cases h
    exact .nil _
  | cons e es ih =>
    rw [exec] at h
    split at h
    · obtain ⟨s', hs, ht⟩ := Option.bind_eq_some_iff.mp h
      exact .cons ‹_› hs (ih ht)
    · cases h

theorem exists_along_of_exec [∀ s e, Decidable (K s e)] {α : Type*} {f : S → α} {a : α}
    (h : (exec step K s es).map f = some a) : ∃ t, Along step K s es t ∧ f t = a := by
  obtain ⟨t, ht, ha⟩ := Option.map_eq_some_iff.mp h
  exact ⟨t, along_of_exec ht, ha⟩

theorem exists_of_exec [∀ s e, Decidable (K s e)] {α : Type*} {Q : S → Prop} (f : S → α) (a : α)
    (h : (exec step K s es).map f = some a) (hQ : ∀ t, Along step K s es t → f t = a → Q t) :
    ∃ t, Along step K s es t ∧ Q t := by
  obtain ⟨t, hrun, ha⟩ := exists_along_of_exec h
  exact ⟨t, hrun, hQ t hrun ha⟩

theorem Along.mono (h : Along step K s es t) (hK : ∀ s e, K s e → K' s e) : Along step K' s es t := by
  induction h with
  | nil => exact .nil _
  | cons hk hs _ ih => exact .cons (hK _ _ hk) hs ih

theorem Along.append (h : Along step K s es t) (h' : Along step K t es' u) : Along step K s (es ++ es') u := by
  induction h with
  | nil => exact h'
  | cons hk hs _ ih => exact .cons hk hs (ih h')

theorem Along.with_events {Q : E → Prop} (h : Along step K s es t) (hQ : ∀ e ∈ es, Q e) :
    Along step (fun s e => K s e ∧ Q e) s es t := by
  induction h with
  | nil => exact .nil _
  | cons hk hs _ ih =>
    exact .cons ⟨hk, hQ _ List.mem_cons_self⟩ hs (ih fun e he => hQ e (List.mem_cons_of_mem _ he))

theorem Along.and (h : Along step K s es t) (h' : Along step K' s es u) :
    Along step (fun s e => K s e ∧ K' s e) s es t := by
  induction h with
  | nil => exact .nil _
  | cons hk hs _ ih =>
    cases h' with
    | cons hk' hs' hrest =>
      cases hs.symm.trans hs'
      exact .cons ⟨hk, hk'⟩ hs (ih hrest)

theorem Along.invariant {I : S → Prop} (h : Along step K s es t)
    (hstep : ∀ s e s', K s e → step s e = some s' → I s → I s') (hs : I s) : I t := by
  induction h with
  | nil => exact hs
  | cons hk he _ ih => exact ih (hstep _ _ _ hk he hs)

theorem Along.history {I : List E → S → Prop} {done : List E} (h : Along step K s es t)
    (hstep : ∀ done s e s', K s e → step s e = some s' → I done s → I (done ++ [e]) s')
    (hs : I done s) : I (done ++ es) t := by
  induction h generalizing done with
  | nil =>
    rw [List.append_nil]
    exact hs
  | cons hk he _ ih =>
    rw [List.append_cons]
    exact ih (hstep _ _ _ _ hk he hs)

theorem Along.relation {I : S → Prop} {R : S → S → Prop} (h : Along step K s es t)
    (hstep : ∀ s e s', K s e → step s e = some s' → I s → I s')
    (hrel : ∀ s e s', K s e → step s e = some s' → I s → R s s')
    (hrefl : ∀ s, R s s) (htrans : ∀ a b c, R a b → R b c → R a c) (hs : I s) : R s t := by
  induction h with
  | nil => exact hrefl _
  | cons hk he _ ih =>
    exact htrans _ _ _ (hrel _ _ _ hk he hs) (ih (hstep _ _ _ hk he hs))

end Runs
