import SmingCoap.Server.RetransmissionSoundness

/-! # The clock of the port

The port counts microseconds in 32 bits and shows whole seconds, so its clock
starts again at zero after 4294 seconds.  As long as it does not, the three
tests on time are right to within a second.  Behind a restart a deadline is
never reached, and whatever was noted before is old at once.
-/

namespace SmingCoap.Server

open CoapServer

/-- `system_get_time` at a time since the start: microseconds in 32 bits. -/
def systemGetTime (time : Nat) : UInt32 := UInt32.ofNat time

/-- `hal_rtc_1Hz_Cnt`. -/
def halRtc1HzCnt (time : Nat) : UInt32 := systemGetTime time / 1000000

/-- `CoAP_SetSleepInteraction`. -/
def setSleepInteraction (now : UInt32) (pIA : CoapInteraction) (seconds : UInt32) : CoapInteraction :=
  { pIA with sleepUntil := now + seconds }

/-- A second of real time. -/
def second : Nat := 1000000

/-- The counter starts again between a time and the one `elapsed` later. -/
def Restarts (start elapsed : Nat) : Prop := 2 ^ 32 ≤ start % 2 ^ 32 + elapsed

/-- A test whether more than `wait` seconds have gone is right to within a second. -/
structure TellsOver (past : Prop) (elapsed wait : Nat) : Prop where
  early : past → wait * second < elapsed + second
  late : ¬ past → elapsed ≤ wait * second + second

/-- A test whether less than `wait` seconds have gone is right to within a second. -/
structure TellsAsleep (asleep : Prop) (elapsed wait : Nat) : Prop where
  early : ¬ asleep → wait * second < elapsed + second
  late : asleep → elapsed < wait * second + second

theorem halRtc1HzCnt_toNat (time : Nat) : (halRtc1HzCnt time).toNat = time % 2 ^ 32 / 1000000 := by
  rw [halRtc1HzCnt, systemGetTime, UInt32.toNat_div, UInt32.toNat_ofNat']
  rfl

section
variable {start elapsed : Nat}

/-- The clock without a restart in between, and with one. -/
theorem clock_cases (period : elapsed < 2 ^ 32) :
    ¬ Restarts start elapsed ∧
        (halRtc1HzCnt start).toNat * second ≤ (halRtc1HzCnt (start + elapsed)).toNat * second ∧
        (halRtc1HzCnt (start + elapsed)).toNat * second < (halRtc1HzCnt start).toNat * second + elapsed + second ∧
        (halRtc1HzCnt start).toNat * second + elapsed < (halRtc1HzCnt (start + elapsed)).toNat * second + second ∨
      Restarts start elapsed ∧ (halRtc1HzCnt (start + elapsed)).toNat ≤ (halRtc1HzCnt start).toNat := by
  rw [halRtc1HzCnt_toNat, halRtc1HzCnt_toNat]
  unfold Restarts second
  omega

theorem halRtc1HzCnt_le (time : Nat) : (halRtc1HzCnt time).toNat ≤ 4294 := by
  rw [halRtc1HzCnt_toNat]
  omega

/-- A deadline up to half the range of the counter away does not overflow. -/
theorem deadline_toNat {wait : UInt32} (short : wait.toNat < 2 ^ 31) :
    (halRtc1HzCnt start + wait).toNat = (halRtc1HzCnt start).toNat + wait.toNat := by
  have armed := halRtc1HzCnt_le start
  rw [UInt32.toNat_add]
  omega

theorem deadline_tells_iff (period : elapsed < 2 ^ 32) {wait : UInt32} (short : wait.toNat < 2 ^ 31) :
    TellsOver (halRtc1HzCnt (start + elapsed) > halRtc1HzCnt start + wait) elapsed wait.toNat ↔
      ¬ Restarts start elapsed ∨ elapsed ≤ (wait.toNat + 1) * second := by
  have test : halRtc1HzCnt (start + elapsed) > halRtc1HzCnt start + wait ↔
      (halRtc1HzCnt start).toNat + wait.toNat < (halRtc1HzCnt (start + elapsed)).toNat := by
    rw [gt_iff_lt, UInt32.lt_iff_toNat_lt, deadline_toNat short]
  rw [test]
  cases clock_cases period with
  | inl straight =>
    obtain ⟨runs, _, fast, slow⟩ := straight
    refine iff_of_true ⟨?_, ?_⟩ (.inl runs)
    all_goals
      unfold second at *
      omega
  | inr wrapped =>
    -- the deadline is not reached
    have waits : ¬ (halRtc1HzCnt start).toNat + wait.toNat < (halRtc1HzCnt (start + elapsed)).toNat := by omega
    constructor
    · intro tells
      have late := tells.late waits
      exact .inr (by rwa [Nat.add_mul, Nat.one_mul])
    · intro allowed
      have soon := allowed.resolve_left fun runs => runs wrapped.1
      exact ⟨fun past => absurd past waits, fun _ => by rwa [Nat.add_mul, Nat.one_mul] at soon⟩

/-- The age of a message is a difference that wraps around with 32 bits, not with the clock. -/
theorem older_tells_iff (period : elapsed < 2 ^ 32) (msg : CoapMessage) {timespan : UInt32}
    (short : timespan.toNat < 2 ^ 31) :
    TellsOver (msgIsOlderThan (halRtc1HzCnt (start + elapsed))
        { msg with timestamp := (halRtc1HzCnt start).toNat } timespan = true) elapsed timespan.toNat ↔
      ¬ Restarts start elapsed ∨
        if halRtc1HzCnt (start + elapsed) = halRtc1HzCnt start then elapsed ≤ (timespan.toNat + 1) * second
        else timespan.toNat * second < elapsed + second := by
  have test : msgIsOlderThan (halRtc1HzCnt (start + elapsed))
        { msg with timestamp := (halRtc1HzCnt start).toNat } timespan = true ↔
      timespan.toNat < (halRtc1HzCnt (start + elapsed) - halRtc1HzCnt start).toNat := by
    rw [msgIsOlderThan, decide_eq_true_eq, gt_iff_lt, UInt32.lt_iff_toNat_lt, UInt32.ofNat_toNat]
  have armed := halRtc1HzCnt_le start
  rw [test, UInt32.toNat_sub]
  cases clock_cases period with
  | inl straight =>
    obtain ⟨runs, forward, fast, slow⟩ := straight
    refine iff_of_true ⟨?_, ?_⟩ (.inl runs)
    all_goals
      unfold second at *
      omega
  | inr wrapped =>
    obtain ⟨restarts, back⟩ := wrapped
    simp only [restarts, not_true_eq_false, false_or]
    by_cases same : halRtc1HzCnt (start + elapsed) = halRtc1HzCnt start
    · -- the clock shows the second of the message again
      simp only [same, if_true]
      have young : ¬ timespan.toNat < (2 ^ 32 - (halRtc1HzCnt start).toNat + (halRtc1HzCnt start).toNat) % 2 ^ 32 := by
        omega
      rw [Nat.add_mul, Nat.one_mul]
      exact ⟨fun tells => tells.late young, fun soon => ⟨fun past => absurd past young, fun _ => soon⟩⟩
    · -- the difference is close to the whole range
      simp only [same, if_false]
      have differs : (halRtc1HzCnt (start + elapsed)).toNat ≠ (halRtc1HzCnt start).toNat := fun equal =>
        same (UInt32.toNat_inj.mp equal)
      have old : timespan.toNat <
          (2 ^ 32 - (halRtc1HzCnt start).toNat + (halRtc1HzCnt (start + elapsed)).toNat) % 2 ^ 32 := by
        omega
      exact ⟨fun tells => tells.early old, fun long => ⟨fun _ => long, fun young => absurd old young⟩⟩

theorem asleep_tells_iff (period : elapsed < 2 ^ 32) (pIA : CoapInteraction) {seconds : UInt32}
    (positive : 0 < seconds) (short : seconds.toNat < 2 ^ 31) :
    TellsAsleep ((setSleepInteraction (halRtc1HzCnt start) pIA seconds).sleepUntil > halRtc1HzCnt (start + elapsed))
        elapsed seconds.toNat ↔
      ¬ Restarts start elapsed ∨ elapsed < (seconds.toNat + 1) * second := by
  have test : (setSleepInteraction (halRtc1HzCnt start) pIA seconds).sleepUntil > halRtc1HzCnt (start + elapsed) ↔
      (halRtc1HzCnt (start + elapsed)).toNat < (halRtc1HzCnt start).toNat + seconds.toNat := by
    rw [gt_iff_lt, UInt32.lt_iff_toNat_lt, setSleepInteraction, deadline_toNat short]
  have some : 0 < seconds.toNat := positive
  rw [test]
  cases clock_cases period with
  | inl straight =>
    obtain ⟨runs, _, fast, slow⟩ := straight
    refine iff_of_true ⟨?_, ?_⟩ (.inl runs)
    all_goals
      unfold second at *
      omega
  | inr wrapped =>
    -- the interaction goes on sleeping
    have asleep : (halRtc1HzCnt (start + elapsed)).toNat < (halRtc1HzCnt start).toNat + seconds.toNat := by omega
    rw [Nat.add_mul, Nat.one_mul]
    constructor
    · exact fun tells => .inr (tells.late asleep)
    · intro allowed
      have soon := allowed.resolve_left fun runs => runs wrapped.1
      exact ⟨fun awake => absurd asleep awake, fun _ => soon⟩

end

/-- The wait that `CoAP_EnableAckTimeout` arms. -/
theorem checkAckTimeout_over (armed now : UInt32) (pIA : CoapInteraction) {retryNum : Nat}
    (attempts : retryNum ≤ maxRetransmit) :
    ∃ wait : UInt32, wait.toNat = 2 ^ (retryNum + 1) ∧
      (checkAckTimeout now (enableAckTimeout armed pIA retryNum) ≠ .waiting ↔ now > armed + wait) := by
  refine ⟨Nat.repeat (fun waitTime => waitTime * ackTimeout) retryNum ackTimeout, ?_, ?_⟩
  · have short : 2 ^ (retryNum + 1) < 2 ^ 32 := by
      apply Nat.pow_lt_pow_right (by decide)
      unfold maxRetransmit at attempts
      omega
    rw [waitTime_toNat, Nat.mod_eq_of_lt short]
  · rw [checkAckTimeout, enableAckTimeout]
    split
    next past =>
      refine iff_of_true ?_ past
      split <;> simp
    next waits => exact iff_of_false (fun differs => differs rfl) waits

theorem ackTimeout_tells_iff {start elapsed : Nat} (period : elapsed < 2 ^ 32) (pIA : CoapInteraction)
    {retryNum : Nat} (attempts : retryNum ≤ maxRetransmit) :
    TellsOver (checkAckTimeout (halRtc1HzCnt (start + elapsed))
        (enableAckTimeout (halRtc1HzCnt start) pIA retryNum) ≠ .waiting) elapsed (2 ^ (retryNum + 1)) ↔
      ¬ Restarts start elapsed ∨ elapsed ≤ (2 ^ (retryNum + 1) + 1) * second := by
  obtain ⟨wait, waitTime, test⟩ :=
    checkAckTimeout_over (halRtc1HzCnt start) (halRtc1HzCnt (start + elapsed)) pIA attempts
  have short : wait.toNat < 2 ^ 31 := by
    rw [waitTime]
    apply Nat.pow_lt_pow_right (by decide)
    unfold maxRetransmit at attempts
    omega
  rw [test, ← waitTime]
  exact deadline_tells_iff period short

/-- When the three tests are right, for all times within one period of the counter. -/
theorem tests_tell_iff (start elapsed : Nat) (period : elapsed < 2 ^ 32) :
    (∀ (pIA : CoapInteraction) (retryNum : Nat), retryNum ≤ maxRetransmit →
      (TellsOver (checkAckTimeout (halRtc1HzCnt (start + elapsed))
          (enableAckTimeout (halRtc1HzCnt start) pIA retryNum) ≠ .waiting) elapsed (2 ^ (retryNum + 1)) ↔
        ¬ Restarts start elapsed ∨ elapsed ≤ (2 ^ (retryNum + 1) + 1) * second)) ∧
    (∀ (msg : CoapMessage) (timespan : UInt32), timespan.toNat < 2 ^ 31 →
      (TellsOver (msgIsOlderThan (halRtc1HzCnt (start + elapsed))
          { msg with timestamp := (halRtc1HzCnt start).toNat } timespan = true) elapsed timespan.toNat ↔
        ¬ Restarts start elapsed ∨
          if halRtc1HzCnt (start + elapsed) = halRtc1HzCnt start then elapsed ≤ (timespan.toNat + 1) * second
          else timespan.toNat * second < elapsed + second)) ∧
    ∀ (pIA : CoapInteraction) (seconds : UInt32), 0 < seconds → seconds.toNat < 2 ^ 31 →
      (TellsAsleep ((setSleepInteraction (halRtc1HzCnt start) pIA seconds).sleepUntil >
          halRtc1HzCnt (start + elapsed)) elapsed seconds.toNat ↔
        ¬ Restarts start elapsed ∨ elapsed < (seconds.toNat + 1) * second) :=
  ⟨fun pIA _ attempts => ackTimeout_tells_iff period pIA attempts,
    fun msg _ short => older_tells_iff period msg short,
    fun pIA _ positive short => asleep_tells_iff period pIA positive short⟩

/-- A wait of two seconds is over three seconds after the start. -/
theorem first_wait_over : checkAckTimeout (halRtc1HzCnt 3000001)
    (enableAckTimeout (halRtc1HzCnt 0) (.requesting coapInitToEmptyResetMsg 0 neighbour false) 0) ≠ .waiting := by
  intro waits
  obtain ⟨deadlines, _⟩ := tests_tell_iff 0 3000001 (by decide)
  have runs : ¬ Restarts 0 3000001 := by simp [Restarts]
  have tells := (deadlines (.requesting coapInitToEmptyResetMsg 0 neighbour false) 0 (Nat.zero_le _)).mpr (.inl runs)
  rw [Nat.zero_add] at tells
  exact absurd (tells.late (not_not.mpr waits)) (by decide)

/-- A deadline in the last second of a period is not reached in the next one. -/
theorem deadline_missed : ¬ ∀ start elapsed, elapsed < 2 ^ 32 → ∀ pIA,
    TellsOver (checkAckTimeout (halRtc1HzCnt (start + elapsed))
      (enableAckTimeout (halRtc1HzCnt start) pIA 0) ≠ .waiting) elapsed (2 ^ (0 + 1)) := by
  intro tells
  have short : 10000000 < 2 ^ 32 := by decide
  have pIA : CoapInteraction := .requesting coapInitToEmptyResetMsg 0 neighbour false
  cases (ackTimeout_tells_iff short pIA (Nat.zero_le _)).mp (tells 4294000000 10000000 short pIA) with
  | inl runs => exact runs (by simp [Restarts])
  | inr soon => exact absurd soon (by decide)

end SmingCoap.Server
