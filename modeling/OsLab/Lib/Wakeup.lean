import Mathlib.Data.Set.Basic

/-!
# Sleepers and pending wakeups

Processes sleep on channels until a condition of theirs holds; whoever makes the condition hold has to wake the channel, now or
in a later step. `Ledger` is what matters of a state: who sleeps on which channel, on which channels its condition holds, and who
has yet to wake which channel. No wakeup is lost when everyone who sleeps with its condition holding is owed a wakeup (`Paid`).

`Paid.step` is the rule for a step: a sleeper whose condition newly holds, or who newly sleeps with it holding, must be owed a
wakeup after the step, and a wakeup that is owed stays owed until nobody sleeps on the channel.
-/

namespace OsLab

/-- Who sleeps where, where its condition holds, and who owes a wakeup to which channel. -/
structure Ledger (P K : Type*) where
  asleep : P → Set K
  ready : P → Set K
  owes : P → Set K

/-- Everyone who sleeps with its condition holding is owed a wakeup. -/
def Ledger.Paid {P K : Type*} (L : Ledger P K) : Prop := ∀ p, ∀ k ∈ L.asleep p, k ∈ L.ready p → ∃ q, k ∈ L.owes q

/-- Where nobody sleeps, nothing is owed. -/
theorem Ledger.paid_of_awake {P K : Type*} {L : Ledger P K} (h : ∀ p k, k ∉ L.asleep p) : L.Paid :=
  fun p k hk => absurd hk (h p k)

/-- One step: what is new is owed, and what was owed is owed still, unless nobody sleeps there any more. -/
theorem Ledger.Paid.step {P K : Type*} {L L' : Ledger P K} (h : L.Paid)
    (hnew : ∀ p, ∀ k ∈ L'.asleep p, k ∈ L'.ready p → (k ∈ L.asleep p ∧ k ∈ L.ready p) ∨ ∃ q, k ∈ L'.owes q)
    (hdue : ∀ q, ∀ k ∈ L.owes q, k ∈ L'.owes q ∨ ∀ p, k ∉ L'.asleep p) : L'.Paid := by
  intro p k hk hr
  rcases hnew p k hk hr with ⟨hk₀, hr₀⟩ | howed
  · obtain ⟨q, hq⟩ := h p k hk₀ hr₀
    rcases hdue q k hq with hq | hnone
    · exact ⟨q, hq⟩
    · exact absurd hk (hnone p)
  · exact howed

end OsLab
