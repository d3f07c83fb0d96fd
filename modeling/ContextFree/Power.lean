namespace ContextFree

-- Fewer than `base` numbers of one power are less than a higher power.
theorem mul_pow_lt (count base low high : Nat) (hc : count < base) (hl : low < high) :
    count * Nat.pow base low < Nat.pow base high := by
  have hb : 0 < base := by omega
  have hpos : 0 < Nat.pow base low := Nat.pow_pos hb
  have hmul : count * Nat.pow base low < base * Nat.pow base low :=
    Nat.mul_lt_mul_of_pos_right hc hpos
  have hsucc : base * Nat.pow base low = Nat.pow base (low + 1) := Nat.mul_comm _ _
  have hle : Nat.pow base (low + 1) ≤ Nat.pow base high := Nat.pow_le_pow_right hb hl
  omega

end ContextFree
