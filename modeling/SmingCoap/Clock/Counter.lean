import Mathlib.Data.List.Chain

/-! # A counter that is read in larger units

A counter starts again at 0 after `period` ticks and is read in units of `unit`
ticks, a fraction of a unit left out.  A period need not be a whole number of
units.  A difference of two readings that takes the smaller one for a reading
behind a restart adds `span`, the whole units of a period, and so loses what a
period has besides.

The instants themselves are numbers of ticks without a bound.  The one equation
behind everything is `Counter.difference_mul`: the fractions that two readings
leave out and the ticks that restarts lose account for all the difference is
wrong by.  Along a sequence of instants the fractions in between cancel, so only
the restarts add up.
-/

namespace Clock

structure Counter where
  period : Nat
  unit : Nat
  positive : 0 < unit

namespace Counter

variable (counter : Counter)

/-- What the counter shows at an instant. -/
def reading (instant : Nat) : Nat := instant % counter.period / counter.unit

/-- The ticks that the reading leaves out. -/
def fraction (instant : Nat) : Nat := instant % counter.period % counter.unit

/-- The whole units of a period. -/
def span : Nat := counter.period / counter.unit

/-- The ticks that a period has besides. -/
def lost : Nat := counter.period % counter.unit

/-- How often the counter starts again between two instants. -/
def restarts (earlier later : Nat) : Nat := later / counter.period - earlier / counter.period

/-- The time between two readings, at most one restart assumed. -/
def difference (base now : Nat) : Nat := if base ≤ now then now - base else now + counter.span - base

/-- The instants are in their order, and less than a period apart by more than a unit. -/
structure Near (earlier later : Nat) : Prop where
  order : earlier ≤ later
  close : later - earlier + counter.unit < counter.period

theorem fraction_lt (instant : Nat) : counter.fraction instant < counter.unit :=
  Nat.mod_lt _ counter.positive

theorem lost_lt : counter.lost < counter.unit := Nat.mod_lt _ counter.positive

theorem reading_mul (instant : Nat) :
    counter.reading instant * counter.unit + counter.fraction instant = instant % counter.period :=
  Nat.div_add_mod' ..

theorem span_mul : counter.span * counter.unit + counter.lost = counter.period := Nat.div_add_mod' ..

variable {counter}

theorem reading_le (some : 0 < counter.period) (instant : Nat) : counter.reading instant ≤ counter.span :=
  Nat.div_le_div_right (Nat.le_of_lt (Nat.mod_lt _ some))

theorem Near.positive {earlier later : Nat} (near : counter.Near earlier later) : 0 < counter.period := by
  have close := near.close
  omega

theorem restarts_le_one {earlier later : Nat} (near : counter.Near earlier later) : counter.restarts earlier later ≤ 1 := by
  have close := near.close
  have bound : later / counter.period ≤ (earlier + counter.period) / counter.period :=
    Nat.div_le_div_right (by omega)
  rw [Nat.add_div_right _ near.positive] at bound
  rw [restarts]
  omega

/-- Within a period the later reading is no smaller. -/
theorem reading_straight {earlier later : Nat} (order : earlier ≤ later)
    (same : earlier / counter.period = later / counter.period) :
    counter.reading earlier ≤ counter.reading later ∧
      counter.reading later * counter.unit + counter.fraction later + earlier =
        counter.reading earlier * counter.unit + counter.fraction earlier + later := by
  have before := Nat.div_add_mod' earlier counter.period
  have after := Nat.div_add_mod' later counter.period
  rw [← same] at after
  constructor
  · apply Nat.div_le_div_right
    omega
  · rw [counter.reading_mul, counter.reading_mul]
    omega

/-- Behind a restart the later reading is smaller by a unit, since the instants are close. -/
theorem reading_restarted {earlier later : Nat} (close : later - earlier + counter.unit < counter.period)
    (count : later / counter.period = earlier / counter.period + 1) :
    counter.reading later < counter.reading earlier ∧
      counter.reading later * counter.unit + counter.fraction later + counter.period + earlier =
        counter.reading earlier * counter.unit + counter.fraction earlier + later := by
  have before := Nat.div_add_mod' earlier counter.period
  have after := Nat.div_add_mod' later counter.period
  rw [count, Nat.add_mul, Nat.one_mul] at after
  constructor
  · have next : (later % counter.period + counter.unit) / counter.unit ≤ earlier % counter.period / counter.unit :=
      Nat.div_le_div_right (by omega)
    rwa [Nat.add_div_right _ counter.positive] at next
  · rw [counter.reading_mul, counter.reading_mul]
    omega

/-- What the two readings leave out, and what a restart loses, is all that is wrong. -/
theorem difference_mul {earlier later : Nat} (near : counter.Near earlier later) :
    counter.difference (counter.reading earlier) (counter.reading later) * counter.unit + counter.fraction later +
        counter.restarts earlier later * counter.lost =
      later - earlier + counter.fraction earlier := by
  have order := near.order
  have periods : earlier / counter.period ≤ later / counter.period := Nat.div_le_div_right order
  have few := restarts_le_one near
  rw [restarts] at few ⊢
  cases Nat.eq_or_lt_of_le periods with
  | inl same =>
    obtain ⟨forward, equation⟩ := reading_straight order same
    have wider := Nat.mul_le_mul_right counter.unit forward
    rw [difference, if_pos forward, Nat.sub_mul, ← same, Nat.sub_self, Nat.zero_mul]
    omega
  | inr restarted =>
    have count : later / counter.period = earlier / counter.period + 1 := by omega
    obtain ⟨back, equation⟩ := reading_restarted near.close count
    have wider := Nat.mul_le_mul_right counter.unit (reading_le near.positive earlier)
    have whole := counter.span_mul
    -- the span is added before the larger reading is taken off
    rw [difference, if_neg (Nat.not_le.mpr back), Nat.sub_mul, Nat.add_mul, count, Nat.add_sub_cancel_left, Nat.one_mul]
    omega

/-- The difference is ahead of the time by less than a unit. -/
theorem difference_lt {earlier later : Nat} (near : counter.Near earlier later) :
    counter.difference (counter.reading earlier) (counter.reading later) * counter.unit <
      later - earlier + counter.unit := by
  have equation := difference_mul near
  have left := counter.fraction_lt earlier
  omega

/-- The difference is behind the time by less than two units. -/
theorem lt_difference {earlier later : Nat} (near : counter.Near earlier later) :
    later - earlier <
      counter.difference (counter.reading earlier) (counter.reading later) * counter.unit + 2 * counter.unit := by
  have equation := difference_mul near
  have left := counter.fraction_lt later
  have restart := Nat.mul_le_mul_right counter.lost (restarts_le_one near)
  have lost := counter.lost_lt
  omega

/-! ## A sequence of instants -/

variable (counter) in
/-- The differences from each instant to the one behind it. -/
def total (start : Nat) : List Nat → Nat
  | [] => 0
  | later :: rest => counter.difference (counter.reading start) (counter.reading later) + total later rest

/-- The instants only go forward. -/
theorem chain_le {start : Nat} {instants : List Nat} (chain : (start :: instants).IsChain counter.Near) :
    start ≤ instants.getLastD start := by
  induction instants generalizing start with
  | nil => exact Nat.le_refl _
  | cons later rest inductionHypothesis =>
    obtain ⟨near, behind⟩ := List.isChain_cons_cons.mp chain
    rw [List.getLastD_cons]
    exact Nat.le_trans near.order (inductionHypothesis behind)

/-- The fractions in between cancel; induction on the instants still to come. -/
theorem total_mul {start : Nat} {instants : List Nat} (chain : (start :: instants).IsChain counter.Near) :
    counter.total start instants * counter.unit + counter.fraction (instants.getLastD start) +
        counter.restarts start (instants.getLastD start) * counter.lost =
      instants.getLastD start - start + counter.fraction start := by
  induction instants generalizing start with
  | nil => simp [total, restarts]
  | cons later rest inductionHypothesis =>
    obtain ⟨near, behind⟩ := List.isChain_cons_cons.mp chain
    have turn := difference_mul near
    have run := inductionHypothesis behind
    have order := near.order
    have forward := chain_le behind
    have before : start / counter.period ≤ later / counter.period := Nat.div_le_div_right order
    have after : later / counter.period ≤ rest.getLastD later / counter.period := Nat.div_le_div_right forward
    have split : counter.restarts start (rest.getLastD later) =
        counter.restarts start later + counter.restarts later (rest.getLastD later) := by
      simp only [restarts]
      omega
    rw [List.getLastD_cons, total, split, Nat.add_mul, Nat.add_mul]
    omega

end Counter

end Clock
