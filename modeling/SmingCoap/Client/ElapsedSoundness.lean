import SmingCoap.Clock.Counter
import SmingCoap.Machine.Unsigned
import SmingCoap.Client.EngineSteps

/-! # The time that has elapsed

The client reads a clock of microseconds in 32 bits and counts in milliseconds.
A period of that clock is 4294967.296 ms long, of which `SYS_TIME_MAX` leaves out
the fraction.  The functions of the timer are stated here once more, in the
types of the code and with a note on every operation, and the counts of the
client follow them.  A single difference is wrong by less than 2 ms.  In a run of
updates the errors do not add up: what is taken off is never ahead by a
millisecond, and every restart of the clock puts it back by 296 microseconds.
-/

namespace SmingCoap

open Clock (Counter)
open Machine (Checked)

/-- `system_get_time` at an instant: microseconds in 32 bits. -/
def systemGetTime (instant : Nat) : UInt32 := UInt32.ofNat instant

/-- The clock as the client reads it. -/
def milliseconds : Counter := ⟨2 ^ 32, 1000, by decide⟩

/-- What `timerElapsed` and `timerUpdate` read and write: `basetime`, and `t` of each queued entry. -/
structure Timestamps where
  basetime : UInt32
  ts : List UInt32

namespace Timestamps

/-- `CoapClient::timerElapsed`; the difference, and what is left behind. -/
def timerElapsed (this : Timestamps) (systemTime : UInt32) : Checked (UInt32 × Timestamps) := do
  let now ← Checked.quotient systemTime 1000
  let diff ←
    (if now ≥ this.basetime then Checked.difference now this.basetime
    else do
      let sum ← Checked.sum now (UInt32.ofNat sysTimeMax)
      Checked.difference sum this.basetime)
  return (diff, { this with basetime := now })

/-- `CoapClient::timerUpdate`. -/
def timerUpdate (this : Timestamps) (systemTime : UInt32) : Checked Timestamps := do
  let (diff, this) ← this.timerElapsed systemTime
  match this.ts with
  | [] => return this
  | first :: rest => do
    let t ← (if first ≥ diff then Checked.difference first diff else pure 0)
    return { this with ts := t :: rest }

/-- Updates at one instant after the other. -/
def timerUpdates (this : Timestamps) (instants : List Nat) : Checked Timestamps :=
  instants.foldlM (fun this instant => this.timerUpdate (systemGetTime instant)) this

section
variable {this : Timestamps} {systemTime : UInt32}

theorem sysTimeMax_toNat : (UInt32.ofNat sysTimeMax).toNat = milliseconds.span := rfl

theorem systemGetTime_toNat (instant : Nat) : (systemGetTime instant / 1000).toNat = milliseconds.reading instant := by
  rw [systemGetTime, UInt32.toNat_div, UInt32.toNat_ofNat']
  rfl

theorem reading_bounded (systemTime : UInt32) : (systemTime / 1000).toNat ≤ milliseconds.span := by
  rw [UInt32.toNat_div]
  exact Nat.div_le_div_right (Nat.le_of_lt systemTime.toNat_lt)

/-- From a `basetime` that the clock can show nothing overflows, and the difference is that of the two readings. -/
theorem timerElapsed_spec (systemTime : UInt32) (bounded : this.basetime.toNat ≤ milliseconds.span) :
    (this.timerElapsed systemTime).exact = true ∧
      (this.timerElapsed systemTime).value.1.toNat =
        milliseconds.difference this.basetime.toNat (systemTime / 1000).toNat ∧
      (this.timerElapsed systemTime).value.2 = { this with basetime := systemTime / 1000 } := by
  have shown := reading_bounded systemTime
  have twice : milliseconds.span + milliseconds.span < 2 ^ 32 := by decide
  have thousand : (1000 : UInt32).toNat ≠ 0 := by decide
  simp only [timerElapsed, Checked.exact_bind, Checked.exact_quotient, Checked.value_bind, Checked.value_quotient,
    Checked.exact_pure, Checked.value_pure, thousand, ne_eq, not_false_eq_true, true_and, and_true, Counter.difference]
  by_cases forward : systemTime / 1000 ≥ this.basetime
  · have order : this.basetime.toNat ≤ (systemTime / 1000).toNat := UInt32.le_iff_toNat_le.mp forward
    rw [if_pos forward, if_pos order, Checked.exact_difference, Checked.value_difference]
    exact ⟨order, UInt32.toNat_sub_of_le _ _ forward⟩
  · have back : ¬ this.basetime.toNat ≤ (systemTime / 1000).toNat := fun order => forward (UInt32.le_iff_toNat_le.mpr order)
    have sum : (systemTime / 1000 + UInt32.ofNat sysTimeMax).toNat = (systemTime / 1000).toNat + milliseconds.span := by
      rw [UInt32.toNat_add, sysTimeMax_toNat]
      exact Nat.mod_eq_of_lt (by omega)
    have order : this.basetime.toNat ≤ (systemTime / 1000 + UInt32.ofNat sysTimeMax).toNat := by omega
    rw [if_neg forward, if_neg back]
    simp only [Checked.exact_bind, Checked.exact_sum, Checked.value_bind, Checked.value_sum,
      Checked.exact_difference, Checked.value_difference, sysTimeMax_toNat]
    refine ⟨⟨by omega, order⟩, ?_⟩
    rw [UInt32.toNat_sub_of_le _ _ (UInt32.le_iff_toNat_le.mpr order), sum]

/-- The head is lowered, as far as that goes, and the rest is kept. -/
def Lowered (diff : Nat) : List UInt32 → List UInt32 → Prop
  | [], ts => ts = []
  | first :: rest, ts => ∃ t, ts = t :: rest ∧ t.toNat = first.toNat - diff

theorem Lowered.refl (ts : List UInt32) : Lowered 0 ts ts := by
  cases ts with
  | nil => rfl
  | cons first rest => exact ⟨first, rfl, rfl⟩

/-- Lowered twice is lowered by the sum, also where that stops at 0. -/
theorem Lowered.trans {diff more : Nat} {before middle after : List UInt32} (lowered : Lowered diff before middle)
    (again : Lowered more middle after) : Lowered (diff + more) before after := by
  cases before with
  | nil =>
    cases lowered
    exact again
  | cons first rest =>
    obtain ⟨t, rfl, left⟩ := lowered
    obtain ⟨last, rfl, leftToo⟩ := again
    refine ⟨last, rfl, ?_⟩
    rw [leftToo, left, Nat.sub_sub]

theorem timerUpdate_spec (systemTime : UInt32) (bounded : this.basetime.toNat ≤ milliseconds.span) :
    (this.timerUpdate systemTime).exact = true ∧
      (this.timerUpdate systemTime).value.basetime = systemTime / 1000 ∧
      Lowered (this.timerElapsed systemTime).value.1.toNat this.ts (this.timerUpdate systemTime).value.ts := by
  obtain ⟨exact, _, left⟩ := timerElapsed_spec systemTime bounded
  rw [timerUpdate]
  obtain ⟨⟨diff, stamps⟩, elapsed⟩ : ∃ result, (this.timerElapsed systemTime).value = result := ⟨_, rfl⟩
  rw [elapsed] at left ⊢
  obtain rfl : stamps = { this with basetime := systemTime / 1000 } := left
  simp only [Checked.exact_bind, exact, true_and, Checked.value_bind, elapsed]
  cases this.ts with
  | nil => exact ⟨rfl, rfl, rfl⟩
  | cons first rest =>
    by_cases enough : first ≥ diff
    · have order := UInt32.le_iff_toNat_le.mp enough
      simp only [if_pos enough, Checked.exact_bind, Checked.exact_difference, Checked.exact_pure, and_true,
        Checked.value_bind, Checked.value_difference, Checked.value_pure, order, true_and]
      exact ⟨_, rfl, UInt32.toNat_sub_of_le _ _ enough⟩
    · have short : first.toNat < diff.toNat := Nat.lt_of_not_le fun order => enough (UInt32.le_iff_toNat_le.mpr order)
      simp only [if_neg enough, Checked.exact_bind, Checked.exact_pure, Checked.value_bind, Checked.value_pure, and_self,
        true_and]
      exact ⟨0, rfl, (Nat.sub_eq_zero_of_le (Nat.le_of_lt short)).symm⟩

/-! ## The client -/

/-- The client counts as the code does. -/
structure Stamped (client : CoapClient) (stamps : Timestamps) : Prop where
  basetime : client.basetime = stamps.basetime.toNat
  ts : client.pQueue.map CoapQueueNode.t = stamps.ts.map UInt32.toNat

theorem elapsed_eq (base now : Nat) : CoapClient.elapsed base now = milliseconds.difference base now := rfl

theorem timerElapsed_stamped {client : CoapClient} (stamped : Stamped client this)
    (bounded : this.basetime.toNat ≤ milliseconds.span) :
    (client.timerElapsed (systemTime / 1000).toNat).1 = (this.timerElapsed systemTime).value.1.toNat := by
  rw [(timerElapsed_spec _ bounded).2.1, ← elapsed_eq, ← stamped.basetime]
  rfl

theorem timerUpdate_stamped {client : CoapClient} (stamped : Stamped client this)
    (bounded : this.basetime.toNat ≤ milliseconds.span) :
    Stamped (client.timerUpdate (systemTime / 1000).toNat) (this.timerUpdate systemTime).value := by
  obtain ⟨_, base, lowered⟩ := timerUpdate_spec systemTime bounded
  have same := stamped.ts
  rw [(timerElapsed_spec _ bounded).2.1, ← elapsed_eq, ← stamped.basetime] at lowered
  rw [CoapClient.timerUpdate_eq]
  refine ⟨base ▸ rfl, ?_⟩
  cases tsEq : this.ts with
  | nil =>
    rw [tsEq, List.map_nil, List.map_eq_nil_iff] at same
    rw [tsEq] at lowered
    rw [same, lowered]
    rfl
  | cons first rest =>
    rw [tsEq, List.map_cons, List.map_eq_cons_iff] at same
    obtain ⟨node, behind, queue, head, tail⟩ := same
    rw [tsEq] at lowered
    obtain ⟨t, left, tEq⟩ := lowered
    rw [queue, left, CoapClient.advanceFirst, List.map_cons, List.map_cons, tail, tEq, head]

/-! ## What is wrong with a difference -/

theorem near_of_lt {earlier later : Nat} (order : earlier ≤ later) (near : later - earlier < 2 ^ 32 - 1000) :
    milliseconds.Near earlier later := by
  refine ⟨order, ?_⟩
  show later - earlier + 1000 < 2 ^ 32
  omega

theorem timerElapsed_close {earlier later : Nat} (near : milliseconds.Near earlier later)
    (noted : this.basetime = systemGetTime earlier / 1000) :
    (this.timerElapsed (systemGetTime later)).value.1.toNat * 1000 < later - earlier + 1000 ∧
      later - earlier < (this.timerElapsed (systemGetTime later)).value.1.toNat * 1000 + 2000 := by
  have bounded : this.basetime.toNat ≤ milliseconds.span := noted ▸ reading_bounded _
  rw [(timerElapsed_spec _ bounded).2.1, noted, systemGetTime_toNat, systemGetTime_toNat]
  exact ⟨Counter.difference_lt near, Counter.lt_difference near⟩

/-- Between any two instants less than `2 ^ 32 - 1000` microseconds apart, with a restart of the clock or without, nothing
overflows, the difference is right to within 2 ms, and less than that is taken off the head too much. -/
theorem timerElapsed_tracks (this : Timestamps) (earlier later : Nat) (order : earlier ≤ later)
    (near : later - earlier < 2 ^ 32 - 1000) (noted : this.basetime = systemGetTime earlier / 1000) :
    let elapsed := this.timerElapsed (systemGetTime later)
    let diff := elapsed.value.1.toNat
    elapsed.exact = true ∧ diff * 1000 < later - earlier + 2000 ∧ later - earlier < diff * 1000 + 2000 ∧
      elapsed.value.2 = { this with basetime := systemGetTime later / 1000 } ∧
      let updated := this.timerUpdate (systemGetTime later)
      updated.exact = true ∧ (this.ts = [] → updated.value.ts = []) ∧
        ∀ first rest, this.ts = first :: rest → ∃ t, updated.value.ts = t :: rest ∧ t.toNat = first.toNat - diff ∧
          (first.toNat - t.toNat) * 1000 < later - earlier + 2000 := by
  have bounded : this.basetime.toNat ≤ milliseconds.span := noted ▸ reading_bounded _
  obtain ⟨exact, _, left⟩ := timerElapsed_spec (systemGetTime later) bounded
  obtain ⟨updates, _, lowered⟩ := timerUpdate_spec (systemGetTime later) bounded
  obtain ⟨ahead, behind⟩ := timerElapsed_close (near_of_lt order near) noted
  refine ⟨exact, by omega, behind, left, updates, ?_, ?_⟩
  · intro empty
    rw [empty] at lowered
    exact lowered
  · intro first rest queue
    rw [queue] at lowered
    obtain ⟨t, ts, tEq⟩ := lowered
    refine ⟨t, ts, tEq, ?_⟩
    have taken : first.toNat - t.toNat ≤ (this.timerElapsed (systemGetTime later)).value.1.toNat := by omega
    calc (first.toNat - t.toNat) * 1000
      _ ≤ (this.timerElapsed (systemGetTime later)).value.1.toNat * 1000 := Nat.mul_le_mul_right 1000 taken
      _ < later - earlier + 1000 := ahead
      _ ≤ later - earlier + 2000 := Nat.add_le_add_left (by decide) _

/-- Half a second behind a restart of the clock, from the last microsecond in front of it. -/
theorem timerElapsed_tracks_restart : ∃ t, ((⟨4294967, [3000]⟩ : Timestamps).timerUpdate
    (systemGetTime (2 ^ 32 + 500000))).value.ts = [t] ∧ (3000 - t.toNat) * 1000 < 500001 + 2000 := by
  obtain ⟨_, _, _, _, _, _, head⟩ :=
    timerElapsed_tracks ⟨4294967, [3000]⟩ (2 ^ 32 - 1) (2 ^ 32 + 500000) (by decide) (by decide) (by decide)
  obtain ⟨t, ts, _, taken⟩ := head 3000 [] rfl
  exact ⟨t, ts, taken⟩

/-! ## Runs -/

/-- Induction on the instants still to come. -/
theorem timerUpdates_spec {start : Nat} {instants : List Nat} (noted : this.basetime = systemGetTime start / 1000)
    (chain : (start :: instants).IsChain milliseconds.Near) :
    (this.timerUpdates instants).exact = true ∧
      (this.timerUpdates instants).value.basetime = systemGetTime (instants.getLastD start) / 1000 ∧
      Lowered (milliseconds.total start instants) this.ts (this.timerUpdates instants).value.ts := by
  induction instants generalizing this start with
  | nil => exact ⟨rfl, noted, .refl _⟩
  | cons later rest inductionHypothesis =>
    have behind := (List.isChain_cons_cons.mp chain).2
    have bounded : this.basetime.toNat ≤ milliseconds.span := noted ▸ reading_bounded _
    obtain ⟨exact, base, lowered⟩ := timerUpdate_spec (systemGetTime later) bounded
    obtain ⟨exactToo, last, further⟩ := inductionHypothesis base behind
    rw [(timerElapsed_spec _ bounded).2.1, noted, systemGetTime_toNat, systemGetTime_toNat] at lowered
    rw [timerUpdates, List.foldlM_cons, List.getLastD_cons, Counter.total]
    exact ⟨(Checked.exact_bind ..).mpr ⟨exact, exactToo⟩, last, lowered.trans further⟩

/-- In every run of updates, however many, what is taken off the head is less than a millisecond ahead of the time that
really went by; and unless it has reached 0 the head is less than a millisecond late, and 296 microseconds for
each restart of the clock. -/
theorem timerUpdates_track (this : Timestamps) (start : Nat) (instants : List Nat)
    (noted : this.basetime = systemGetTime start / 1000) (chain : (start :: instants).IsChain milliseconds.Near) :
    (this.timerUpdates instants).exact = true ∧
      ∀ first rest, this.ts = first :: rest → ∃ t, (this.timerUpdates instants).value.ts = t :: rest ∧
        (first.toNat - t.toNat) * 1000 < instants.getLastD start - start + 1000 ∧
        (t.toNat ≠ 0 → instants.getLastD start - start <
          (first.toNat - t.toNat) * 1000 + 1000 + 296 * milliseconds.restarts start (instants.getLastD start)) := by
  obtain ⟨exact, _, lowered⟩ := timerUpdates_spec noted chain
  refine ⟨exact, ?_⟩
  intro first rest queue
  rw [queue] at lowered
  obtain ⟨t, ts, left⟩ := lowered
  have account := Counter.total_mul chain
  have before := milliseconds.fraction_lt start
  have after := milliseconds.fraction_lt (instants.getLastD start)
  have unit : milliseconds.unit = 1000 := rfl
  have lost : milliseconds.lost = 296 := rfl
  rw [unit] at account before after
  rw [lost] at account
  exact ⟨t, ts, by omega, fun running => by omega⟩

end

end Timestamps

end SmingCoap
