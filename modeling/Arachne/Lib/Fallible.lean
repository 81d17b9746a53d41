import Mathlib.Data.List.Forall2

/-! Computations that stop at the first error with a message, and the rules that
take an accepted run apart into its steps. -/

namespace Arachne.Fallible

variable {α β : Type} {a : α} {u : Unit} {xs : List α} {ys : List β} {R : α → β → Prop}

abbrev Outcome := Except String

/-- An early return: `if c { return Err(message) }`. -/
def failIf (c : Prop) [Decidable c] (message : String) : Outcome Unit :=
  if c then .error message else .ok ()

/-- The value of an option, or the error that stands for its absence. -/
def orFail {α : Type} : Option α → String → Outcome α
  | some a, _ => .ok a
  | none, message => .error message

section Inversion

variable {c : Prop} [Decidable c] {message : String}

@[simp] theorem failIf_eq_ok : failIf c message = .ok u ↔ ¬c := by
  by_cases h : c <;> simp [failIf, h]

theorem failIf_of (h : c) : failIf c message = .error message :=
  if_pos h

theorem failIf_of_not (h : ¬c) : failIf c message = .ok () := by
  simp [h]

variable {o : Option α} {b : α} {x : Outcome α} {f : α → Outcome β} {message' : String}

@[simp] theorem orFail_eq_ok : orFail o message = .ok a ↔ o = some a := by
  cases o <;> simp [orFail]

@[simp] theorem orFail_some (a : α) : orFail (some a) message = .ok a := rfl

@[simp] theorem ok_bind (a : α) (f : α → Outcome β) : (.ok a : Outcome α) >>= f = f a := rfl

@[simp] theorem error_bind (f : α → Outcome β) :
    (.error message : Outcome α) >>= f = .error message := rfl

@[simp] theorem bind_eq_ok {b : β} : x >>= f = .ok b ↔ ∃ a, x = .ok a ∧ f a = .ok b := by
  cases x <;> simp

@[simp] theorem map_eq_ok {f : α → β} {b : β} : f <$> x = .ok b ↔ ∃ a, x = .ok a ∧ f a = b := by
  cases x <;> simp [Functor.map, Except.map]

theorem map_some_eq_ok {a : α} : some <$> x = .ok (some a) ↔ x = .ok a := by
  simp

@[simp] theorem failIf_eq_error : failIf c message = .error message' ↔ c ∧ message = message' := by
  by_cases h : c <;> simp [failIf, h]

@[simp] theorem orFail_eq_error :
    orFail o message = .error message' ↔ o = none ∧ message = message' := by
  cases o <;> simp [orFail]

@[simp] theorem bind_eq_error :
    x >>= f = .error message ↔ x = .error message ∨ ∃ a, x = .ok a ∧ f a = .error message := by
  cases x <;> simp

@[simp] theorem pure_ne_error : (pure a : Outcome α) ≠ .error message := by
  simp [pure, Except.pure]

theorem ok_unique (ha : x = .ok a) (hb : x = .ok b) : a = b :=
  Except.ok.inj (ha.symm.trans hb)

theorem ite_error_eq_ok : (if c then .error message else x) = .ok a ↔ ¬c ∧ x = .ok a := by
  by_cases h : c <;> simp [h]

theorem ite_else_error_eq_ok : (if c then x else .error message) = .ok a ↔ c ∧ x = .ok a := by
  by_cases h : c <;> simp [h]

@[simp] theorem pure_eq_ok : (pure a : Outcome α) = .ok b ↔ a = b := by
  simp [pure, Except.pure]

end Inversion

section Loops

theorem forM_eq_ok {f : α → Outcome Unit} : forM xs f = .ok u ↔ ∀ x ∈ xs, f x = .ok () := by
  induction xs with
  | nil => simp
  | cons x xs ih =>
    simp only [List.forM_cons, bind_eq_ok, ih, List.forall_mem_cons]
    constructor
    · rintro ⟨_, hx, hxs⟩
      exact ⟨hx, hxs⟩
    · rintro ⟨hx, hxs⟩
      exact ⟨(), hx, hxs⟩

theorem mapM_eq_ok {f : α → Outcome β} :
    xs.mapM f = .ok ys ↔ List.Forall₂ (fun x y => f x = .ok y) xs ys := by
  induction xs generalizing ys with
  | nil => cases ys <;> simp [pure, Except.pure]
  | cons x xs ih =>
    simp only [List.mapM_cons, bind_eq_ok, pure_eq_ok, List.forall₂_cons_left_iff]
    constructor
    · rintro ⟨y, hy, ys', hys, rfl⟩
      exact ⟨y, ys', hy, ih.mp hys, rfl⟩
    · rintro ⟨y, ys', hy, hys, rfl⟩
      exact ⟨y, hy, ys', ih.mpr hys, rfl⟩

theorem exists_of_mem_right {y : β} (h : List.Forall₂ R xs ys) (hy : y ∈ ys) :
    ∃ x ∈ xs, R x y := by
  induction h with
  | nil => simp at hy
  | @cons x y' xs ys hxy _ ih =>
    rcases List.mem_cons.mp hy with rfl | hy
    · exact ⟨x, by simp, hxy⟩
    · exact List.exists_mem_cons_of_exists (ih hy)

theorem exists_of_mem_left {x : α} (h : List.Forall₂ R xs ys) (hx : x ∈ xs) : ∃ y ∈ ys, R x y :=
  exists_of_mem_right h.flip hx

/-- The loop of one that asks for record after record until there is none, for so many rounds
at most. -/
def catchUp (reply : α → Outcome (Option β)) (accept : α → β → Outcome α) :
    Nat → α → Outcome α
  | 0, a => pure a
  | rounds + 1, a => do
      match ← reply a with
      | none => pure a
      | some b => catchUp reply accept rounds (← accept a b)

theorem catchUp_ok {reply : α → Outcome (Option β)} {accept : α → β → Outcome α}
    {P : Nat → α → Prop} (hdone : ∀ a, P 0 a → reply a = .ok none)
    (hround : ∀ n a, P (n + 1) a → ∃ b a', reply a = .ok (some b) ∧ accept a b = .ok a' ∧ P n a')
    {n : Nat} (h : P n a) (rounds : Nat) :
    ∃ a', catchUp reply accept rounds a = .ok a' ∧ P (n - rounds) a' := by
  induction rounds generalizing n a with
  | zero => exact ⟨a, rfl, h⟩
  | succ rounds ih =>
    cases n with
    | zero =>
      refine ⟨a, ?_, by simpa using h⟩
      rw [catchUp, hdone a h]
      rfl
    | succ n =>
      obtain ⟨b, a', hreply, haccept, hnext⟩ := hround n a h
      obtain ⟨a'', hrest, hlast⟩ := ih hnext
      refine ⟨a'', ?_, by simpa using hlast⟩
      rw [catchUp, hreply, ok_bind]
      dsimp only
      rw [haccept, ok_bind, hrest]

end Loops

end Arachne.Fallible
