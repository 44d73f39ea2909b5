/-! Actions on a state that may fail. A failed action leaves a state behind too, so what an action keeps is
said of the state that it leaves whether or not it fails, and holds of actions in a row as soon as it
holds of each. -/

namespace EStateM

variable {ε σ α β : Type} {action : EStateM ε σ α} {next : α → EStateM ε σ β} {s left : σ} {e : ε}

theorem bind_of_ok {a : α} (h : action s = .ok a left) : (action >>= next) s = next a left := by
  change EStateM.bind action next s = next a left
  rw [EStateM.bind, h]

theorem bind_of_error (h : action s = .error e left) : (action >>= next) s = .error e left := by
  change EStateM.bind action next s = .error e left
  rw [EStateM.bind, h]

/-- An action that succeeds in two steps. -/
theorem bind_eq_ok {b : β} :
    (action >>= next) s = .ok b left ↔
      ∃ a middle, action s = .ok a middle ∧ next a middle = .ok b left := by
  refine ⟨?_, ?_⟩
  · intro h
    cases hfirst : action s with
    | ok a middle =>
        rw [bind_of_ok hfirst] at h
        exact ⟨a, middle, rfl, h⟩
    | error e middle =>
        rw [bind_of_error hfirst] at h
        cases h
  · intro h
    obtain ⟨a, middle, hfirst, hnext⟩ := h
    rw [bind_of_ok hfirst]
    exact hnext

theorem bind_unit_eq_ok {action : EStateM ε σ PUnit} {next : EStateM ε σ β} {b : β} :
    (action >>= fun _ => next) s = .ok b left ↔
      ∃ middle, action s = .ok ⟨⟩ middle ∧ next middle = .ok b left := by
  rw [bind_eq_ok]
  exact ⟨fun ⟨_, h⟩ => h, fun h => ⟨⟨⟩, h⟩⟩

theorem map_of_ok {a : α} (f : α → β) (h : action s = .ok a left) : (f <$> action) s = .ok (f a) left := by
  change EStateM.map f action s = .ok (f a) left
  rw [EStateM.map, h]

theorem map_of_error (f : α → β) (h : action s = .error e left) : (f <$> action) s = .error e left := by
  change EStateM.map f action s = .error e left
  rw [EStateM.map, h]

theorem map_congr {other : EStateM ε σ α} (f : α → β) (h : action s = other s) :
    (f <$> action) s = (f <$> other) s := by
  change EStateM.map f action s = EStateM.map f other s
  rw [EStateM.map, EStateM.map, h]

section

variable {step : α → EStateM ε σ PUnit} {a : α} {as more : List α}

theorem forM_append :
    (as ++ more).forM step s = (as.forM step >>= fun _ => more.forM step) s :=
  congrFun List.forM_append s

theorem forM_cons_eq_ok :
    (a :: as).forM step s = .ok ⟨⟩ left ↔
      ∃ middle, step a s = .ok ⟨⟩ middle ∧ as.forM step middle = .ok ⟨⟩ left := by
  change (step a >>= fun _ => as.forM step) s = .ok ⟨⟩ left ↔ _
  exact bind_unit_eq_ok

theorem forM_append_eq_ok :
    (as ++ more).forM step s = .ok ⟨⟩ left ↔
      ∃ middle, as.forM step s = .ok ⟨⟩ middle ∧ more.forM step middle = .ok ⟨⟩ left := by
  rw [forM_append, bind_unit_eq_ok]

theorem forM_singleton_eq_ok : [a].forM step s = .ok ⟨⟩ left ↔ step a s = .ok ⟨⟩ left := by
  rw [forM_cons_eq_ok]
  constructor
  · intro h
    obtain ⟨middle, hstep, hnone⟩ := h
    cases hnone
    exact hstep
  · intro h
    exact ⟨left, h, rfl⟩

/-- A row fails where one of its actions does, after the actions before that one. -/
theorem forM_eq_error :
    as.forM step s = .error e left ↔ ∃ before a after middle, as = before ++ a :: after ∧
      before.forM step s = .ok ⟨⟩ middle ∧ step a middle = .error e left := by
  constructor
  · intro h
    induction as generalizing s with
    | nil => cases h
    | cons a as ih =>
        cases hstep : step a s with
        | error f middle =>
            have hfails : (a :: as).forM step s = .error f middle := bind_of_error hstep
            obtain ⟨rfl, rfl⟩ := EStateM.Result.error.inj (hfails.symm.trans h)
            exact ⟨[], a, as, s, rfl, rfl, hstep⟩
        | ok _ next =>
            have hgoes : (a :: as).forM step s = as.forM step next := bind_of_ok hstep
            obtain ⟨before, b, after, middle, rfl, hbefore, hfails⟩ := ih (hgoes.symm.trans h)
            exact ⟨a :: before, b, after, middle, rfl, forM_cons_eq_ok.2 ⟨next, hstep, hbefore⟩, hfails⟩
  · intro h
    obtain ⟨before, a, after, middle, rfl, hbefore, hfails⟩ := h
    rw [forM_append, bind_of_ok hbefore]
    exact bind_of_error hfails

end

/-- The state that an action leaves behind, whether or not it fails. -/
def leftBy (action : EStateM ε σ α) (s : σ) : σ :=
  match action s with
  | .ok _ left => left
  | .error _ left => left

theorem leftBy_of_ok {a : α} (h : action s = .ok a left) : action.leftBy s = left := by
  rw [leftBy, h]

theorem leftBy_of_error (h : action s = .error e left) : action.leftBy s = left := by
  rw [leftBy, h]

/-- A property of states that an action does not end, even where it fails. -/
def Keeps (property : σ → Prop) (action : EStateM ε σ α) : Prop :=
  ∀ s, property s → property (action.leftBy s)

variable {property : σ → Prop}

theorem Keeps.of_ok {a : α} (h : action.Keeps property) (hs : property s) (hok : action s = .ok a left) :
    property left := by
  rw [← leftBy_of_ok hok]
  exact h s hs

theorem Keeps.bind (haction : action.Keeps property) (hnext : ∀ a, (next a).Keeps property) :
    (action >>= next).Keeps property := by
  intro s hs
  have hmiddle := haction s hs
  cases hfirst : action s with
  | ok a middle =>
      rw [leftBy_of_ok hfirst] at hmiddle
      rw [leftBy, bind_of_ok hfirst]
      exact hnext a middle hmiddle
  | error e middle =>
      rw [leftBy_of_error hfirst] at hmiddle
      rw [leftBy_of_error (bind_of_error hfirst)]
      exact hmiddle

theorem Keeps.forM {step : α → EStateM ε σ PUnit} {as : List α}
    (h : ∀ a ∈ as, (step a).Keeps property) : (as.forM step).Keeps property := by
  induction as with
  | nil => exact fun _ hs => hs
  | cons a as ih =>
      rw [List.forall_mem_cons] at h
      exact Keeps.bind h.1 fun _ => ih h.2

end EStateM
