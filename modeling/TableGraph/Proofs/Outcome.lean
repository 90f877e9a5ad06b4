import Mathlib.Data.List.Forall2

/-!
# Outcomes of steps

Computations that may fail, taken apart into their steps.
-/

namespace TableGraph

variable {ε α β : Type}

/-- Two steps succeed when the first does and then the second. -/
theorem bind_eq_ok_iff {x : Except ε α} {f : α → Except ε β} {b : β} :
    x >>= f = .ok b ↔ ∃ a, x = .ok a ∧ f a = .ok b := by
  cases x with
  | error e =>
    constructor
    · intro h
      cases h
    · rintro ⟨a, h, _⟩
      cases h
  | ok a =>
    constructor
    · intro h
      exact ⟨a, rfl, h⟩
    · rintro ⟨a', h, hf⟩
      cases h
      exact hf

/-- Two steps go over into two other steps when each of them does. -/
theorem bind_eq_map_bind {α' β' : Type} {x : Except ε α} {x' : Except ε α'} {f : α → Except ε β}
    {f' : α' → Except ε β'} {g : α → α'} {h : β → β'} (hx : x' = x.map g)
    (hf : ∀ a, f' (g a) = (f a).map h) : x' >>= f' = (x >>= f).map h := by
  subst hx
  cases x with
  | error e => rfl
  | ok a => exact hf a

/-- What each step keeps, steps taken one after another keep. -/
theorem foldlM_invariant {P : β → Prop} {f : β → α → Except ε β} {xs : List α}
    (hstep : ∀ x ∈ xs, ∀ b b', P b → f b x = .ok b' → P b') {b b' : β} (hb : P b)
    (h : xs.foldlM f b = .ok b') : P b' := by
  induction xs generalizing b with
  | nil =>
    cases h
    exact hb
  | cons x xs ih =>
    rw [List.foldlM_cons] at h
    obtain ⟨next, hnext, h⟩ := bind_eq_ok_iff.mp h
    rw [List.forall_mem_cons] at hstep
    exact ih hstep.2 (hstep.1 b next hb hnext) h

/-- What is left of an outcome is its result. -/
theorem toOption_eq_some_iff {x : Except ε α} {a : α} : x.toOption = some a ↔ x = .ok a := by
  cases x with
  | error e => simp [Except.toOption]
  | ok b => simp [Except.toOption]

/-- A step for each item of a list succeeds when each step does. -/
theorem mapM_attach_eq_ok_iff {xs : List α} {f : α → Except ε β} {ys : List β} :
    xs.attach.mapM (fun x => f x.1) = .ok ys ↔ List.Forall₂ (fun x y => f x = .ok y) xs ys := by
  rw [List.mapM_subtype fun _ _ => rfl, List.unattach_attach]
  induction xs generalizing ys with
  | nil =>
    constructor
    · intro h
      cases h
      exact List.Forall₂.nil
    · intro h
      cases h
      rfl
  | cons x xs ih =>
    rw [List.mapM_cons]
    constructor
    · intro h
      obtain ⟨y, hy, h⟩ := bind_eq_ok_iff.mp h
      obtain ⟨ys', hys, h⟩ := bind_eq_ok_iff.mp h
      cases h
      exact List.Forall₂.cons hy (ih.mp hys)
    · intro h
      cases h with
      | cons hy hys => exact bind_eq_ok_iff.mpr ⟨_, hy, bind_eq_ok_iff.mpr ⟨_, ih.mpr hys, rfl⟩⟩

/-- Two steps can both be taken when the first can and whatever it leads to lets the second be
taken. -/
theorem exists_bind_eq_ok_iff {x : Except ε α} {f : α → Except ε β} :
    (∃ b, x >>= f = .ok b) ↔ ∃ a, x = .ok a ∧ ∃ b, f a = .ok b := by
  simp only [bind_eq_ok_iff]
  exact exists_comm.trans (exists_congr fun a => exists_and_left)

/-- Where it does not matter to the second step what the first leads to, two steps can both be taken
when each can. -/
theorem exists_bind_eq_ok_iff_and {x : Except ε α} {f : α → Except ε β} {p : Prop}
    (hf : ∀ a, (∃ b, f a = .ok b) ↔ p) : (∃ b, x >>= f = .ok b) ↔ (∃ a, x = .ok a) ∧ p := by
  rw [exists_bind_eq_ok_iff]
  simp only [hf]
  exact exists_and_right

/-- There are results for all items of a list when there is one for each. -/
theorem exists_forall₂_iff {f : α → Except ε β} {xs : List α} :
    (∃ ys, List.Forall₂ (fun x y => f x = .ok y) xs ys) ↔ ∀ x ∈ xs, ∃ y, f x = .ok y := by
  induction xs with
  | nil => exact ⟨fun _ _ h => absurd h List.not_mem_nil, fun _ => ⟨[], .nil⟩⟩
  | cons x xs ih =>
    rw [List.forall_mem_cons, ← ih]
    constructor
    · rintro ⟨_, _ | ⟨hy, hys⟩⟩
      exact ⟨⟨_, hy⟩, _, hys⟩
    · rintro ⟨⟨y, hy⟩, ys, hys⟩
      exact ⟨y :: ys, .cons hy hys⟩

end TableGraph
