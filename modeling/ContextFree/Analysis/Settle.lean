namespace ContextFree

-- Makes rounds until one changes nothing, and counts them, the last one
-- included. The fuel bounds the number of rounds. Every caller gives as much as
-- the growth of its state can use up, so it is never the fuel that ends the work.
def settle [DecidableEq α] (round : α → α) : Nat → α → α × Nat
  | 0, state => (state, 0)
  | fuel + 1, state =>
    let next := round state
    if next = state then (state, 1)
    else
      let (final, rounds) := settle round fuel next
      (final, rounds + 1)

-- What holds at the start and is kept by every round holds at the end.
theorem settle_induct [DecidableEq α] (round : α → α) (Holds : α → Prop)
    (step : ∀ s, Holds s → Holds (round s)) (fuel : Nat) (state : α) (start : Holds state) :
    Holds (settle round fuel state).1 := by
  induction fuel generalizing state with
  | zero => exact start
  | succ fuel ih =>
    rw [settle]
    split
    · exact start
    · exact ih _ (step _ start)

end ContextFree
