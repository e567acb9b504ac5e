import Mathlib.Logic.Function.Iterate
import SimpleLR.Saturation

namespace SimpleLR

variable {α : Type _} {step : α → α} {Settled : α → Prop}

/-- Nothing is left to do after `n` steps, and something is before each of them. -/
def SettlesAfter (step : α → α) (Settled : α → Prop) (n : Nat) (x : α) : Prop :=
  Settled (step^[n] x) ∧ ∀ m < n, ¬ Settled (step^[m] x)

theorem settlesAfter_zero {x : α} (h : Settled x) : SettlesAfter step Settled 0 x :=
  ⟨h, fun m hm => absurd hm (Nat.not_lt_zero m)⟩

theorem SettlesAfter.succ {n : Nat} {x : α} (hx : ¬ Settled x)
    (h : SettlesAfter step Settled n (step x)) : SettlesAfter step Settled (n + 1) x := by
  obtain ⟨hsettled, hbefore⟩ := h
  refine ⟨hsettled, ?_⟩
  intro m hm
  cases m with
  | zero => exact hx
  | succ m => exact hbefore m (Nat.lt_of_succ_lt_succ hm)

theorem exists_iterate_eq_saturate [DecidablePred Settled] {room : α → Nat}
    (room_lt : ∀ x, ¬ Settled x → room (step x) < room x) (x : α) :
    ∃ n, SettlesAfter step Settled n x ∧ step^[n] x = saturate step Settled room room_lt x := by
  fun_induction saturate step Settled room room_lt x with
  | case1 x h => exact ⟨0, settlesAfter_zero h, rfl⟩
  | case2 x h ih =>
    obtain ⟨n, hn, heq⟩ := ih
    exact ⟨n + 1, hn.succ h, heq⟩

end SimpleLR
