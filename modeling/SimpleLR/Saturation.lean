namespace SimpleLR

variable {α : Type _}

/-- Repeats `step` until `Settled` holds. A step before that leaves less room than there was. -/
def saturate (step : α → α) (Settled : α → Prop) [DecidablePred Settled] (room : α → Nat)
    (room_lt : ∀ x, ¬ Settled x → room (step x) < room x) (x : α) : α :=
  if Settled x then x else saturate step Settled room room_lt (step x)
termination_by room x
decreasing_by exact room_lt x ‹_›

section

variable {step : α → α} {Settled : α → Prop} [DecidablePred Settled] {room : α → Nat}
  {room_lt : ∀ x, ¬ Settled x → room (step x) < room x}

theorem settled_saturate (x : α) : Settled (saturate step Settled room room_lt x) := by
  fun_induction saturate step Settled room room_lt x <;> assumption

theorem saturate_induction {P : α → Prop} (hstep : ∀ x, P x → P (step x)) {x : α} (h : P x) :
    P (saturate step Settled room room_lt x) := by
  fun_induction saturate step Settled room room_lt x with
  | case1 => exact h
  | case2 x _ ih => exact ih (hstep x h)

end

theorem countP_lt_countP {p q : α → Bool} {l : List α} (hle : ∀ x ∈ l, q x → p x)
    (hlt : ∃ x ∈ l, p x ∧ ¬ q x) : l.countP q < l.countP p := by
  obtain ⟨x, hx, hp, hq⟩ := hlt
  obtain ⟨l₁, l₂, rfl⟩ := List.append_of_mem hx
  have h₁ : l₁.countP q ≤ l₁.countP p := List.countP_mono_left fun y hy => hle y (by simp [hy])
  have h₂ : l₂.countP q ≤ l₂.countP p := List.countP_mono_left fun y hy => hle y (by simp [hy])
  simp only [List.countP_append, List.countP_cons, hp, hq]
  simp only [↓reduceIte, Bool.false_eq_true]
  omega

end SimpleLR
