import MemoryOptimizer.Lib.Rounding
import MemoryOptimizer.Lib.Words

/-!
# The bandwidth limit

`add_and_sleep` credits a migration with the time since the last call, takes what the
call moved out of the credit, and sleeps off a debt. The numbers are exact rationals;
a conversion that C leaves undefined has no result.

* `addAndSleep_covered` — one call, where the old credit leaves room for the new one.
* `Bounded` — what the limit is for.
* `run_bounded` — every run of such calls is bounded.
-/

namespace MemoryOptimizer

/-- Conversion of a floating-point number to `long`. -/
def longOfFloat (q : ℚ) : Option ℤ :=
  if -2 ^ 63 ≤ truncate q ∧ truncate q < 2 ^ 63 then some (truncate q) else none

/-- Conversion of a floating-point number to `useconds_t`, from a whole one. -/
def useconds (n : ℕ) : Option ℕ := if n < 2 ^ 32 then some n else none

/-- `class BandwidthLimit`, with the time of `last_time` in seconds. -/
structure BandwidthLimit where
  bwlimitByteps : ℕ
  allowBytes : ℤ
  lastTime : ℚ
  deriving DecidableEq

namespace BandwidthLimit

/-- A call of `add_and_sleep`: what `gettimeofday` reads in it, and its argument. -/
structure Call where
  curTime : ℚ
  bytes : ℕ

/-- `MAX_TIME_HISTORY`, in seconds. -/
def maxTimeHistory : ℚ := 3

/-- A limiter that has not been called. -/
def start (bwlimitByteps : ℕ) : BandwidthLimit := ⟨bwlimitByteps, 0, 0⟩

/-- `time_delta`, cut to `MAX_TIME_HISTORY`. -/
def timeDelta (b : BandwidthLimit) (curTime : ℚ) : ℚ :=
  if maxTimeHistory < curTime - b.lastTime then maxTimeHistory else curTime - b.lastTime

/-- What `allow_bytes` is assigned before the bytes of the call are subtracted. -/
def credit (b : BandwidthLimit) (curTime : ℚ) : ℚ :=
  b.allowBytes + b.timeDelta curTime * b.bwlimitByteps

/-- The microseconds that a call sleeps once `allow_bytes` is updated. The division is
one of `unsigned long`s. -/
def sleepTime (b : BandwidthLimit) : Option ℕ :=
  if b.allowBytes < 0 then
    useconds (ulong (ulongOfSigned (-b.allowBytes) / b.bwlimitByteps * 1000000))
  else some 0

/-- The state after a call that is credited with `allowed`: `bytes` makes the
subtraction one of `unsigned long`s. -/
def charge (b : BandwidthLimit) (call : Call) (allowed : ℤ) : BandwidthLimit where
  bwlimitByteps := b.bwlimitByteps
  allowBytes := longOfUlong (usub (ulongOfSigned allowed) call.bytes)
  lastTime := call.curTime

/-- `add_and_sleep`: the new state and the microseconds slept. -/
def addAndSleep (b : BandwidthLimit) (call : Call) : Option (BandwidthLimit × ℕ) :=
  if b.bwlimitByteps = 0 then some (b, 0)
  else if b.lastTime = 0 then some ({ b with allowBytes := 0, lastTime := call.curTime }, 0)
  else (longOfFloat (b.credit call.curTime)).bind fun allowed =>
    (b.charge call allowed).sleepTime.map fun sleep => (b.charge call allowed, sleep)

/-- Calls one after the other, with the sleep of each. -/
def run : List Call → BandwidthLimit → Option (BandwidthLimit × List ℕ)
  | [], b => some (b, [])
  | call :: calls, b => (b.addAndSleep call).bind fun r =>
    (run calls r.1).map fun r' => (r'.1, r.2 :: r'.2)

/-- The bytes of some calls. -/
def totalBytes (calls : List Call) : ℕ := (calls.map Call.bytes).sum

/-- What the limit is for: the credit is never worth more than `MAX_TIME_HISTORY`
seconds, neither before the bytes of a call are taken out of it nor after that, and no
burst of calls at one instant moves a second's bytes more without a sleep. -/
structure Bounded (rate : ℕ) (calls : List Call) : Prop where
  returns : ∃ r, run calls (start rate) = some r
  allow : ∀ done b sleeps, done <+: calls → run done (start rate) = some (b, sleeps) →
    b.allowBytes ≤ maxTimeHistory * rate
  credited : ∀ done call b sleeps, done ++ [call] <+: calls → done ≠ [] →
    run done (start rate) = some (b, sleeps) →
    truncate (b.credit call.curTime) ≤ maxTimeHistory * rate
  burst : ∀ done calls' b sleeps b' sleeps', done ++ calls' <+: calls → done ≠ [] →
    run done (start rate) = some (b, sleeps) → run calls' b = some (b', sleeps') →
    (∃ t, ∀ call ∈ calls', call.curTime = t) → (maxTimeHistory + 1) * rate ≤ totalBytes calls' →
    ∃ sleep ∈ sleeps', 0 < sleep

/-- The bytes that a call may count on: what is left, and the rate for the time since
the last call, of at most `MAX_TIME_HISTORY`. -/
def offered (b : BandwidthLimit) (call : Call) : ℚ :=
  b.allowBytes + min (call.curTime - b.lastTime) maxTimeHistory * b.bwlimitByteps

/-- The calls that the limit covers: less than a byte is left beyond what the time since
the last call makes room for, and the debt of the call is one that can be slept off. -/
def Covered (b : BandwidthLimit) (call : Call) : Prop :=
  call.curTime ≠ 0 ∧ (b.lastTime ≠ 0 →
    b.allowBytes <
        (maxTimeHistory - min (call.curTime - b.lastTime) maxTimeHistory) * b.bwlimitByteps + 1 ∧
      b.offered call < 2 ^ 63 ∧
      call.bytes < truncate (b.offered call) + 2 ^ 63 ∧
      call.bytes < truncate (b.offered call) + 4295 * b.bwlimitByteps)

instance (b : BandwidthLimit) (call : Call) : Decidable (b.Covered call) :=
  inferInstanceAs (Decidable (_ ∧ (_ → _)))

/-- A run whose calls are all covered. -/
def MeetsAll : BandwidthLimit → List Call → Prop
  | _, [] => True
  | b, call :: calls =>
    b.Covered call ∧ ∀ b' sleep, b.addAndSleep call = some (b', sleep) → b'.MeetsAll calls

section Step

variable {b : BandwidthLimit} {call : Call}

/-- The invariant of a run. -/
structure Sound (b : BandwidthLimit) : Prop where
  limited : 0 < b.bwlimitByteps
  allow_ge : -2 ^ 63 ≤ b.allowBytes
  allow_le : b.allowBytes ≤ 3 * b.bwlimitByteps

theorem Sound.start {rate : ℕ} (hrate : 0 < rate) : (start rate).Sound where
  limited := hrate
  allow_ge := show (-2 ^ 63 : ℤ) ≤ 0 by norm_num
  allow_le := show (0 : ℤ) ≤ 3 * (rate : ℤ) by positivity

theorem timeDelta_nonneg {t : ℚ} (h : b.lastTime ≤ t) : 0 ≤ b.timeDelta t := by
  unfold timeDelta maxTimeHistory
  split
  · norm_num
  · exact sub_nonneg.mpr h

/-- A second call at the same instant is credited with nothing. -/
theorem credit_lastTime (b : BandwidthLimit) : b.credit b.lastTime = b.allowBytes := by
  simp [credit, timeDelta, maxTimeHistory]

theorem credit_eq_offered (b : BandwidthLimit) (call : Call) :
    b.credit call.curTime = b.offered call := by
  unfold credit offered timeDelta
  split
  · next h => rw [min_eq_right h.le]
  · next h => rw [min_eq_left (not_lt.mp h)]

theorem Sound.le_credit (hb : b.Sound) {t : ℚ} (h : b.lastTime ≤ t) :
    -2 ^ 63 ≤ truncate (b.credit t) := by
  refine hb.allow_ge.trans (le_truncate ?_)
  exact le_add_of_nonneg_right (mul_nonneg (timeDelta_nonneg h) (Nat.cast_nonneg _))

theorem Covered.credit_le (hc : b.Covered call) (hlast : b.lastTime ≠ 0) :
    truncate (b.credit call.curTime) ≤ 3 * b.bwlimitByteps := by
  refine Int.lt_add_one_iff.mp (truncate_lt (by positivity) ?_)
  have hroom := (hc.2 hlast).1
  rw [credit_eq_offered, offered]
  unfold maxTimeHistory at hroom ⊢
  push_cast
  linarith

/-- A debt that can be slept off, and one that takes a sleep. -/
theorem sleepTime_of_fits (hrate : 0 < b.bwlimitByteps)
    (hfits : -b.allowBytes < 4295 * b.bwlimitByteps) (hlong : -2 ^ 63 ≤ b.allowBytes) :
    ∃ sleep, b.sleepTime = some sleep ∧ (b.allowBytes + b.bwlimitByteps ≤ 0 → 0 < sleep) := by
  unfold sleepTime
  split
  · next hdebt =>
    obtain ⟨debt, hdebteq⟩ : ∃ debt : ℕ, -b.allowBytes = debt :=
      Int.eq_ofNat_of_zero_le (by omega)
    have hword : ulongOfSigned (-b.allowBytes) = debt := by
      have hnat := ulongOfSigned_of_nonneg (i := -b.allowBytes) (by omega) (by omega)
      omega
    have hseconds : debt / b.bwlimitByteps ≤ 4294 :=
      Nat.lt_succ_iff.mp (Nat.div_lt_of_lt_mul (by rw [mul_comm]; omega))
    have hword' : debt / b.bwlimitByteps * 1000000 < 2 ^ 32 := by omega
    rw [hword, ulong_of_lt (by omega), useconds, if_pos hword']
    refine ⟨_, rfl, fun howed => Nat.mul_pos (Nat.div_pos ?_ hrate) (by norm_num)⟩
    omega
  · next hdebt => exact ⟨0, rfl, fun howed => absurd howed (by omega)⟩

/-- What a covered call does once the limiter has started. -/
theorem addAndSleep_covered (hb : b.Sound) (hlast : b.lastTime ≠ 0)
    (htime : b.lastTime ≤ call.curTime) (hc : b.Covered call) :
    ∃ b' sleep, b.addAndSleep call = some (b', sleep) ∧ b'.Sound ∧
      b' = ⟨b.bwlimitByteps, truncate (b.credit call.curTime) - call.bytes, call.curTime⟩ ∧
      (b'.allowBytes + b'.bwlimitByteps ≤ 0 → 0 < sleep) := by
  obtain ⟨-, hcredit, hlong, hdebt⟩ := hc.2 hlast
  rw [← credit_eq_offered] at hcredit hlong hdebt
  have hlow := hb.le_credit htime
  have hhigh : truncate (b.credit call.curTime) < 2 ^ 63 :=
    truncate_lt (by norm_num) (by exact_mod_cast hcredit)
  have hcharge : b.charge call (truncate (b.credit call.curTime)) =
      ⟨b.bwlimitByteps, truncate (b.credit call.curTime) - call.bytes, call.curTime⟩ := by
    rw [charge, longOfUlong_usub_ulongOfSigned (by omega) hhigh (by omega)]
  obtain ⟨sleep, hsleep, hpos⟩ := sleepTime_of_fits
    (b := ⟨b.bwlimitByteps, truncate (b.credit call.curTime) - call.bytes, call.curTime⟩)
    hb.limited (by dsimp only; omega) (by dsimp only; omega)
  have hfloat : longOfFloat (b.credit call.curTime) = some (truncate (b.credit call.curTime)) :=
    if_pos ⟨hlow, hhigh⟩
  have hle := hc.credit_le hlast
  refine ⟨_, sleep, ?_, ?_, rfl, hpos⟩
  · rw [addAndSleep, if_neg hb.limited.ne', if_neg hlast, hfloat, Option.bind_some, hcharge,
      hsleep, Option.map_some]
  · exact ⟨hb.limited, by dsimp only; omega, by dsimp only; omega⟩

/-- The first call starts the clock. -/
theorem addAndSleep_first (hb : b.Sound) (hlast : b.lastTime = 0) :
    b.addAndSleep call = some (⟨b.bwlimitByteps, 0, call.curTime⟩, 0) := by
  simp [addAndSleep, hb.limited.ne', hlast]

/-- One covered call keeps the invariant. -/
theorem Sound.step (hb : b.Sound) (htime : b.lastTime ≠ 0 → b.lastTime ≤ call.curTime)
    (hc : b.Covered call) :
    ∃ b' sleep, b.addAndSleep call = some (b', sleep) ∧ b'.Sound ∧
      b'.bwlimitByteps = b.bwlimitByteps ∧ b'.lastTime = call.curTime := by
  by_cases hlast : b.lastTime = 0
  · refine ⟨_, _, addAndSleep_first hb hlast, ⟨hb.limited, ?_, ?_⟩, rfl, rfl⟩
    · exact (Sound.start hb.limited).allow_ge
    · exact (Sound.start hb.limited).allow_le
  · obtain ⟨b', sleep, hstep, hsound, rfl, -⟩ := addAndSleep_covered hb hlast (htime hlast) hc
    exact ⟨_, sleep, hstep, hsound, rfl, rfl⟩

end Step

section Run

variable {b : BandwidthLimit} {call : Call} {calls : List Call}

theorem run_cons {b' : BandwidthLimit} {sleep : ℕ} (h : b.addAndSleep call = some (b', sleep)) :
    run (call :: calls) b = (run calls b').map fun r => (r.1, sleep :: r.2) := by
  rw [run, h, Option.bind_some]

/-- What is met by a run is met by its beginning and by what follows it. -/
theorem MeetsAll.append {rest : List Call} (h : b.MeetsAll (calls ++ rest)) :
    b.MeetsAll calls ∧ ∀ b' sleeps, run calls b = some (b', sleeps) → b'.MeetsAll rest := by
  induction calls generalizing b with
  | nil =>
    refine ⟨trivial, fun b' sleeps hrun => ?_⟩
    obtain ⟨rfl, -⟩ := Prod.mk.inj (Option.some.inj hrun)
    exact h
  | cons call calls ih =>
    obtain ⟨hcall, hcalls⟩ := h
    refine ⟨⟨hcall, fun b' sleep hstep => (ih (hcalls b' sleep hstep)).1⟩, ?_⟩
    intro b' sleeps hrun
    obtain ⟨⟨b₁, sleep⟩, hstep, hrest⟩ := Option.bind_eq_some_iff.mp hrun
    obtain ⟨⟨b₂, sleeps'⟩, hrun', heq⟩ := Option.map_eq_some_iff.mp hrest
    obtain ⟨rfl, -⟩ := Prod.mk.inj heq
    exact (ih (hcalls b₁ sleep hstep)).2 b₂ sleeps' hrun'

/-- A run of covered calls returns and keeps the invariant. -/
theorem Sound.run (hb : b.Sound) (hsorted : calls.Pairwise (·.curTime ≤ ·.curTime))
    (htime : b.lastTime ≠ 0 → ∀ call ∈ calls, b.lastTime ≤ call.curTime)
    (h : b.MeetsAll calls) :
    ∃ b' sleeps, BandwidthLimit.run calls b = some (b', sleeps) ∧ b'.Sound ∧
      b'.bwlimitByteps = b.bwlimitByteps ∧
      (calls ≠ [] → b'.lastTime ≠ 0 ∧ ∃ call ∈ calls, b'.lastTime = call.curTime) := by
  induction calls generalizing b with
  | nil => exact ⟨b, [], rfl, hb, rfl, fun hne => absurd rfl hne⟩
  | cons call calls ih =>
    obtain ⟨hcall, hcalls⟩ := h
    obtain ⟨hfirst, hsorted'⟩ := List.pairwise_cons.mp hsorted
    obtain ⟨b₁, sleep, hstep, hsound, hrate, hlast⟩ :=
      hb.step (fun hlast => htime hlast call List.mem_cons_self) hcall
    obtain ⟨b₂, sleeps, hrun, hsound', hrate', hlast'⟩ := ih hsound hsorted'
      (fun _ call' hmem => hlast ▸ hfirst call' hmem) (hcalls b₁ sleep hstep)
    refine ⟨b₂, sleep :: sleeps, ?_, hsound', hrate'.trans hrate, fun _ => ?_⟩
    · rw [run_cons hstep, hrun, Option.map_some]
    · rcases eq_or_ne calls [] with rfl | hne
      · obtain ⟨rfl, -⟩ := Prod.mk.inj (Option.some.inj hrun)
        exact ⟨hlast ▸ hcall.1, call, List.mem_cons_self, hlast⟩
      · obtain ⟨hzero, call', hmem, heq⟩ := hlast' hne
        exact ⟨hzero, call', List.mem_cons_of_mem _ hmem, heq⟩

/-- The calls of one instant share one credit: once they are a second's bytes beyond
it, one of them sleeps. -/
theorem Sound.burst_sleeps {t : ℚ} {b' : BandwidthLimit} {sleeps : List ℕ} (hb : b.Sound)
    (hlast : b.lastTime ≠ 0) (htime : b.lastTime ≤ t)
    (hinstant : ∀ call' ∈ call :: calls, call'.curTime = t) (h : b.MeetsAll (call :: calls))
    (hbytes : truncate (b.credit t) + b.bwlimitByteps ≤ totalBytes (call :: calls))
    (hrun : BandwidthLimit.run (call :: calls) b = some (b', sleeps)) :
    ∃ sleep ∈ sleeps, 0 < sleep := by
  induction calls generalizing b call sleeps with
  | nil =>
    obtain rfl : call.curTime = t := hinstant call List.mem_cons_self
    obtain ⟨b₁, sleep, hstep, -, rfl, hpos⟩ := addAndSleep_covered hb hlast htime h.1
    rw [run_cons hstep] at hrun
    obtain ⟨-, rfl⟩ := Prod.mk.inj (Option.some.inj hrun)
    refine ⟨sleep, List.mem_singleton_self _, hpos ?_⟩
    rw [totalBytes, List.map_singleton, List.sum_singleton] at hbytes
    dsimp only
    omega
  | cons next calls ih =>
    obtain rfl : call.curTime = t := hinstant call List.mem_cons_self
    obtain ⟨b₁, sleep, hstep, hsound, heq, -⟩ := addAndSleep_covered hb hlast htime h.1
    rw [run_cons hstep] at hrun
    obtain ⟨⟨b₂, sleeps'⟩, hrest, hpair⟩ := Option.map_eq_some_iff.mp hrun
    obtain ⟨rfl, rfl⟩ := Prod.mk.inj hpair
    have hlast₁ : b₁.lastTime = call.curTime := by rw [heq]
    have hcredit : truncate (b₁.credit call.curTime) =
        truncate (b.credit call.curTime) - call.bytes := by
      rw [← hlast₁, credit_lastTime, truncate_intCast, hlast₁, heq]
    have hrate : b₁.bwlimitByteps = b.bwlimitByteps := by rw [heq]
    have htotal : totalBytes (call :: next :: calls) =
        call.bytes + totalBytes (next :: calls) := List.sum_cons
    obtain ⟨sleep', hmem, hpos⟩ := ih hsound (hlast₁ ▸ h.1.1) hlast₁.le
      (fun call' hmem => hinstant call' (List.mem_cons_of_mem _ hmem)) (h.2 b₁ sleep hstep)
      (by rw [hcredit, hrate]; omega) hrest
    exact ⟨sleep', List.mem_cons_of_mem _ hmem, hpos⟩

end Run

section Bounds

variable {rate : ℕ} {done rest : List Call} {b : BandwidthLimit} {sleeps : List ℕ}

/-- What holds once the first calls of a covered run have been made. -/
theorem run_start (hrate : 0 < rate) (hsorted : (done ++ rest).Pairwise (·.curTime ≤ ·.curTime))
    (h : (start rate).MeetsAll (done ++ rest)) (hrun : run done (start rate) = some (b, sleeps)) :
    b.Sound ∧ b.bwlimitByteps = rate ∧ b.MeetsAll rest ∧
      (done ≠ [] → b.lastTime ≠ 0 ∧ ∀ call ∈ rest, b.lastTime ≤ call.curTime) := by
  obtain ⟨hdone, hrest⟩ := MeetsAll.append h
  obtain ⟨hsorted', -, hle⟩ := List.pairwise_append.mp hsorted
  obtain ⟨b₀, sleeps₀, hrun₀, hsound, hrate₀, hlast⟩ := (Sound.start hrate).run hsorted'
    (fun hzero => absurd rfl hzero) hdone
  obtain ⟨rfl, -⟩ := Prod.mk.inj (Option.some.inj (hrun₀.symm.trans hrun))
  refine ⟨hsound, hrate₀, hrest b₀ sleeps hrun, fun hne => ?_⟩
  obtain ⟨hzero, call₀, hmem₀, hlast₀⟩ := hlast hne
  exact ⟨hzero, fun call hmem => hlast₀ ▸ hle call₀ hmem₀ call hmem⟩

/-- The limit holds in every run of covered calls, at times that do not decrease. -/
theorem run_bounded (hrate : 0 < rate) (calls : List Call)
    (hsorted : calls.Pairwise (·.curTime ≤ ·.curTime)) (h : (start rate).MeetsAll calls) :
    Bounded rate calls := by
  constructor
  case returns =>
    obtain ⟨b, sleeps, hrun, -⟩ := (Sound.start hrate).run hsorted
      (fun hzero => absurd rfl hzero) h
    exact ⟨_, hrun⟩
  case allow =>
    rintro done b sleeps ⟨rest, rfl⟩ hrun
    obtain ⟨hsound, hrate₀, -⟩ := run_start hrate hsorted h hrun
    have hle := hsound.allow_le
    rw [hrate₀] at hle
    unfold maxTimeHistory
    exact_mod_cast hle
  case credited =>
    rintro done call b sleeps ⟨rest, rfl⟩ hne hrun
    rw [List.append_assoc] at h hsorted
    obtain ⟨-, hrate₀, hmeets, hlast⟩ := run_start hrate hsorted h hrun
    have hle := hmeets.1.credit_le (hlast hne).1
    rw [hrate₀] at hle
    unfold maxTimeHistory
    exact_mod_cast hle
  case burst =>
    rintro done calls' b sleeps b' sleeps' ⟨rest, rfl⟩ hne hrun hrun' ⟨t, hinstant⟩ hbytes
    rw [List.append_assoc] at h hsorted
    obtain ⟨hsound, hrate₀, hmeets, hlast⟩ := run_start hrate hsorted h hrun
    obtain ⟨hzero, htime⟩ := hlast hne
    cases calls' with
    | nil =>
      have hpos : (0 : ℚ) < (maxTimeHistory + 1) * rate := by
        unfold maxTimeHistory
        positivity
      exact absurd hbytes (not_le.mpr (by simpa [totalBytes] using hpos))
    | cons call calls' =>
      have hcall := hinstant call List.mem_cons_self
      have hle := hmeets.1.credit_le hzero
      have htotal : (3 + 1) * rate ≤ totalBytes (call :: calls') := by
        unfold maxTimeHistory at hbytes
        exact_mod_cast hbytes
      rw [hcall] at hle
      exact hsound.burst_sleeps hzero (hcall ▸ htime call List.mem_cons_self) hinstant
        (MeetsAll.append hmeets).1 (by omega) hrun'

end Bounds

theorem MeetsAll.cons {b b' : BandwidthLimit} {call : Call} {calls : List Call} {sleep : ℕ}
    (hcall : b.Covered call) (hstep : b.addAndSleep call = some (b', sleep))
    (h : b'.MeetsAll calls) : b.MeetsAll (call :: calls) := by
  refine ⟨hcall, fun b₁ sleep₁ hstep₁ => ?_⟩
  obtain ⟨rfl, -⟩ := Prod.mk.inj (Option.some.inj (hstep.symm.trans hstep₁))
  exact h

/-- A call every two seconds, and a burst that sleeps. -/
theorem run_bounded_burst :
    0 < 1000 ∧ Bounded 1000 [⟨1, 0⟩, ⟨3, 1500⟩, ⟨5, 2000⟩, ⟨5, 6000⟩] := by
  have h₁ : addAndSleep (start 1000) ⟨1, 0⟩ = some (⟨1000, 0, 1⟩, 0) := by decide +kernel
  have h₂ : addAndSleep ⟨1000, 0, 1⟩ ⟨3, 1500⟩ = some (⟨1000, 500, 3⟩, 0) := by decide +kernel
  have h₃ : addAndSleep ⟨1000, 500, 3⟩ ⟨5, 2000⟩ = some (⟨1000, 500, 5⟩, 0) := by
    decide +kernel
  have h₄ : addAndSleep ⟨1000, 500, 5⟩ ⟨5, 6000⟩ = some (⟨1000, -5500, 5⟩, 5000000) := by
    decide +kernel
  refine ⟨by decide, run_bounded (by decide) _ (by decide +kernel) ?_⟩
  exact .cons (by decide +kernel) h₁ (.cons (by decide +kernel) h₂
    (.cons (by decide +kernel) h₃ (.cons (by decide +kernel) h₄ trivial)))

/-- Without migration the credit grows by `MAX_TIME_HISTORY` seconds at each call that
comes as much later, and six seconds' bytes go through at once. -/
theorem credit_accumulates :
    run [⟨1, 0⟩, ⟨4, 0⟩, ⟨7, 0⟩] (start 1000) = some (⟨1000, 6000, 7⟩, [0, 0, 0]) ∧
      run [⟨7, 6000⟩] ⟨1000, 6000, 7⟩ = some (⟨1000, 0, 7⟩, [0]) ∧
      ¬ Bounded 1000 [⟨1, 0⟩, ⟨4, 0⟩, ⟨7, 0⟩, ⟨7, 6000⟩] := by
  have hrun : run [⟨1, 0⟩, ⟨4, 0⟩, ⟨7, 0⟩] (start 1000) =
      some (⟨1000, 6000, 7⟩, [0, 0, 0]) := by decide +kernel
  refine ⟨hrun, by decide +kernel, fun h => ?_⟩
  have hle := h.allow _ _ _ ⟨[⟨7, 6000⟩], rfl⟩ hrun
  norm_num [maxTimeHistory] at hle

end BandwidthLimit

end MemoryOptimizer
