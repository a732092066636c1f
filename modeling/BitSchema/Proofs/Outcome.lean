import Mathlib

/-!
# Outcomes of steps

Readers, encoders and decoders are steps on a state that may fail.  `Succeeds x s a s'` says that
the step `x`, started in `s`, gives `a` and leaves `s'`.  There is one rule for each way of putting
steps together, so that a proof about a step takes it apart with these rules and never runs it.
-/

namespace BitSchema

open List

variable {ε δ σ α β : Type}

/-- The result of a step from `s` and the state it leaves. -/
def outcome (x : ExceptT ε (StateM σ) α) (s : σ) : Except ε α × σ := x.run s

/-- The step succeeds from `s` with the result `a` and the state `s'`. -/
def Succeeds (x : ExceptT ε (StateM σ) α) (s : σ) (a : α) (s' : σ) : Prop :=
  outcome x s = (.ok a, s')

variable {x : ExceptT ε (StateM σ) α} {s s' s'' : σ} {a a' : α}

/-- A program ends in one way. -/
theorem Succeeds.unique (left : Succeeds x s a s') (right : Succeeds x s a' s'') :
    a = a' ∧ s' = s'' := by
  have same := Eq.trans (Eq.symm left) right
  injection same with result state
  injection result with result
  exact ⟨result, state⟩

/-- A step whose outcome is known succeeds only that way. -/
theorem Succeeds.iff_eq (h : Succeeds x s a s') : Succeeds x s a' s'' ↔ a = a' ∧ s' = s'' := by
  constructor
  · exact h.unique
  · rintro ⟨rfl, rfl⟩
    exact h

@[simp] theorem succeeds_pure :
    Succeeds (pure a : ExceptT ε (StateM σ) α) s a' s' ↔ a = a' ∧ s = s' :=
  Succeeds.iff_eq rfl

@[simp] theorem succeeds_throw {e : ε} :
    Succeeds (throw e : ExceptT ε (StateM σ) α) s a s' ↔ False := by
  refine iff_false_intro fun h => ?_
  have same : (Except.error e, s) = (Except.ok a, s') := h
  injection same with result
  cases result

/-- The second program starts where the first one succeeds. -/
theorem outcome_bind (f : α → ExceptT ε (StateM σ) β) :
    outcome (x >>= f) s =
      match outcome x s with
      | (.ok a, s') => outcome (f a) s'
      | (.error e, s') => (.error e, s') := by
  have unfolded : outcome (x >>= f) s =
      outcome (ExceptT.mk (ExceptT.bindCont f (outcome x s).1)) (outcome x s).2 := rfl
  rw [unfolded]
  rcases outcome x s with ⟨result | result, s'⟩ <;> rfl

/-- Two programs in a row succeed if both do. -/
@[simp] theorem succeeds_bind {f : α → ExceptT ε (StateM σ) β} {b : β} :
    Succeeds (x >>= f) s b s'' ↔ ∃ a s', Succeeds x s a s' ∧ Succeeds (f a) s' b s'' := by
  unfold Succeeds
  rw [outcome_bind]
  rcases outcome x s with ⟨result | result, s'⟩
  · simp
  · simp

@[simp] theorem exists_unit_iff {p : Unit → Prop} : (∃ u, p u) ↔ p () :=
  ⟨fun ⟨_, h⟩ => h, fun h => ⟨(), h⟩⟩

@[simp] theorem succeeds_map {f : α → β} {b : β} :
    Succeeds (f <$> x) s b s' ↔ ∃ a, Succeeds x s a s' ∧ f a = b := by
  rw [map_eq_pure_bind, succeeds_bind]
  constructor
  · rintro ⟨a, t, first, rest⟩
    obtain ⟨rfl, rfl⟩ := succeeds_pure.mp rest
    exact ⟨a, first, rfl⟩
  · rintro ⟨a, first, rfl⟩
    exact ⟨a, s', first, rfl⟩

@[simp] theorem succeeds_get {t : σ} :
    Succeeds (get : ExceptT ε (StateM σ) σ) s t s' ↔ s = t ∧ s = s' :=
  Succeeds.iff_eq rfl

@[simp] theorem succeeds_set {t : σ} {u : PUnit} :
    Succeeds (set t : ExceptT ε (StateM σ) PUnit) s u s' ↔ t = s' := by
  have known : Succeeds (set t : ExceptT ε (StateM σ) PUnit) s u t := rfl
  rw [known.iff_eq]
  exact and_iff_right rfl

@[simp] theorem succeeds_modify {f : σ → σ} {u : PUnit} :
    Succeeds (modify f : ExceptT ε (StateM σ) PUnit) s u s' ↔ f s = s' := by
  have known : Succeeds (modify f : ExceptT ε (StateM σ) PUnit) s u (f s) := rfl
  rw [known.iff_eq]
  exact and_iff_right rfl

/-- Renaming errors does not matter to a success. -/
@[simp] theorem succeeds_adapt {f : ε → δ} :
    Succeeds (ExceptT.adapt f x) s a s' ↔ Succeeds x s a s' := by
  have unfolded : outcome (ExceptT.adapt f x) s =
      ((outcome x s).1.mapError f, (outcome x s).2) := rfl
  unfold Succeeds
  rw [unfolded]
  rcases outcome x s with ⟨result | result, t⟩
  · simp [Except.mapError]
  · simp [Except.mapError]

@[simp] theorem succeeds_ite {c : Prop} [Decidable c] {y : ExceptT ε (StateM σ) α} :
    Succeeds (if c then x else y) s a s' ↔
      if c then Succeeds x s a s' else Succeeds y s a s' := by
  split <;> rfl

/-- Whether a step without a result succeeds can be decided by running it. -/
theorem succeeds_unit_iff {x : ExceptT ε (StateM σ) Unit} :
    Succeeds x s () s' ↔ (outcome x s).1.isOk = true ∧ (outcome x s).2 = s' := by
  unfold Succeeds
  rcases outcome x s with ⟨result | result, t⟩
  · simp [Except.isOk, Except.toBool]
  · simp [Except.isOk, Except.toBool]

instance [DecidableEq σ] {x : ExceptT ε (StateM σ) Unit} : Decidable (Succeeds x s () s') :=
  decidable_of_iff _ succeeds_unit_iff.symm

/-! ## Steps for the elements of a list -/

/-- A state goes through the elements of a list, one after the other. -/
def Threaded (step : α → σ → σ → Prop) : List α → σ → σ → Prop
  | [], s, s' => s = s'
  | a :: as, s, s'' => ∃ s', step a s s' ∧ Threaded step as s' s''

variable {step : α → σ → σ → Prop} {as : List α}

@[simp] theorem threaded_nil : Threaded step [] s s' ↔ s = s' := Iff.rfl

@[simp] theorem threaded_cons :
    Threaded step (a :: as) s s'' ↔ ∃ s', step a s s' ∧ Threaded step as s' s'' := Iff.rfl

/-- The items may be made on the way. -/
theorem threaded_map {f : β → α} {bs : List β} :
    Threaded step (bs.map f) s s' ↔ Threaded (fun b => step (f b)) bs s s' := by
  induction bs generalizing s with
  | nil => rfl
  | cons b bs ih => simp [ih]

theorem threaded_zip_left {bs : List β} (same : as.length = bs.length) :
    Threaded (fun p => step p.1) (as.zip bs) s s' ↔ Threaded step as s s' := by
  have all : (as.zip bs).map Prod.fst = as := map_fst_zip (Nat.le_of_eq same)
  exact (threaded_map (f := Prod.fst)).symm.trans (by rw [all])

theorem threaded_zip_right {bs : List β} (same : bs.length = as.length) :
    Threaded (fun p => step p.2) (bs.zip as) s s' ↔ Threaded step as s s' := by
  have all : (bs.zip as).map Prod.snd = as := map_snd_zip (Nat.le_of_eq same.symm)
  exact (threaded_map (f := Prod.snd)).symm.trans (by rw [all])

/-! ## Results without a state -/

theorem mapError_ok_iff {ε δ α : Type} {f : ε → δ} {x : Except ε α} {a : α} :
    x.mapError f = .ok a ↔ x = .ok a := by
  cases x <;> simp [Except.mapError]

/-- An error that is renamed was one before. -/
theorem mapError_error_iff {ε δ α : Type} {f : ε → δ} {x : Except ε α} {e : δ} :
    x.mapError f = .error e ↔ ∃ e', x = .error e' ∧ f e' = e := by
  cases x <;> simp [Except.mapError]

theorem toOption_eq_some_iff {ε α : Type} {x : Except ε α} {a : α} :
    x.toOption = some a ↔ x = .ok a := by
  cases x <;> simp [Except.toOption]

/-- Two computations in a row have a result if both do. -/
theorem bind_ok_iff {ε α β : Type} {x : Except ε α} {f : α → Except ε β} {b : β} :
    x >>= f = .ok b ↔ ∃ a, x = .ok a ∧ f a = .ok b := by
  cases x <;> simp [bind, Except.bind]

/-- The first error ends a computation. -/
theorem bind_error_iff {ε α β : Type} {x : Except ε α} {f : α → Except ε β} {e : ε} :
    x >>= f = .error e ↔ x = .error e ∨ ∃ a, x = .ok a ∧ f a = .error e := by
  cases x <;> simp [bind, Except.bind]

/-- Each item has its own result. -/
theorem mapM_ok {ε α β : Type} {f : α → Except ε β} {as : List α} {bs : List β}
    (ok : as.mapM f = .ok bs) : List.Forall₂ (fun a b => f a = .ok b) as bs := by
  induction as generalizing bs with
  | nil =>
    cases ok
    exact .nil
  | cons a as ih =>
    rw [mapM_cons, bind_ok_iff] at ok
    obtain ⟨b, first, ok⟩ := ok
    obtain ⟨rest, later, eq⟩ := bind_ok_iff.mp ok
    cases eq
    exact .cons first (ih later)

/-- What stands in the second list has a partner in the first. -/
theorem exists_of_forall₂ {α β : Type} {related : α → β → Prop} {as : List α} {bs : List β}
    (all : List.Forall₂ related as bs) {b : β} (mem : b ∈ bs) : ∃ a ∈ as, related a b := by
  induction all with
  | nil => cases mem
  | cons first _ ih =>
    rcases mem_cons.mp mem with rfl | mem
    · exact ⟨_, mem_cons_self, first⟩
    · obtain ⟨a, inside, related⟩ := ih mem
      exact ⟨a, mem_cons_of_mem _ inside, related⟩

theorem map_eq_of_forall₂ {α β γ : Type} {f : α → γ} {g : β → γ} {as : List α} {bs : List β}
    (all : List.Forall₂ (fun a b => f a = g b) as bs) : as.map f = bs.map g := by
  rw [← forall₂_eq_eq_eq, forall₂_map_left_iff, forall₂_map_right_iff]
  exact all

/-- Of parts that are measured one by one, none measures more than all. -/
theorem le_of_max {α : Type} {f : α → Nat} {g : List α → Nat}
    (step : ∀ a as, g (a :: as) = max (f a) (g as)) {a : α} {as : List α} (mem : a ∈ as) :
    f a ≤ g as := by
  induction as with
  | nil => cases mem
  | cons first as ih =>
    rw [step]
    rcases mem_cons.mp mem with rfl | mem
    · exact Nat.le_max_left _ _
    · exact (ih mem).trans (Nat.le_max_right _ _)

end BitSchema
