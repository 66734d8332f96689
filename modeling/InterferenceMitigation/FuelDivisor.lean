import InterferenceMitigation.FuelTotals

/-!
The divisor of the Linux mitigator. `mitigate` divides by the fuel a run has spent, with
or without a worst-case value to compare with. Nothing makes the first resumption spend
any fuel, and a wrapping build takes every multiple of 2^32 for zero: on such a total the
run, and with it the sweep, ends in a panic.
-/

namespace InterferenceMitigation.FuelDivisor

open MachineInt Durations Emission Emit FreezeControl RunWasm FuelTotals

/-- What `mitigate` is called with after a resumption, and the fuel of that resumption. -/
structure Sums where
  df : Option U32
  accT : Duration
  accF : Option U32
  deriving DecidableEq, Repr

/-- The part of the accounting that comes before the call of `mitigate`. -/
def accumulate (p : Profile) (fuel : Option U32) (cycle : Cycle) (dt : Duration)
    (remaining : Option U32) : Except Panic Sums := do
  let df ← zipWith (fun a b => sub p b a) remaining fuel
  let accT ← cycle.accT.add dt
  let accF ← zipWith (add p) cycle.accF df
  return ⟨df, accT, accF⟩

theorem account_eq (p : Profile) (fuel : Option U32) (m : Mitigator) (cycle : Cycle)
    (dt : Duration) (remaining : Option U32) :
    account p fuel m cycle dt remaining = do
      let s ← accumulate p fuel cycle dt remaining
      let irq ← m.mitigate p s.accT s.accF
      return ⟨s.df, s.accT, s.accF, irq⟩ := by
  simp only [account, accumulate, bind_assoc, pure_bind]

/-- The resumption gets as far as its accounting. -/
def Accounted (r : Resumption) : Prop :=
  ∃ state, r.state = some state ∧ ((∃ rem, state = .resumable rem) → r.accessed = true)

/-- After its record the loop goes on to the next resumption. -/
def Continues (r : Resumption) : Prop :=
  (∃ rem, r.state = some (.resumable rem)) ∧ r.accessed = true ∧ r.sent = true ∧
    r.refueled = true

/-- The loop started in `cycle` calls `mitigate` with the sums `s`. -/
inductive Called (p : Profile) (fuel : Option U32) (m : Mitigator) :
    Cycle → List Resumption → Sums → Prop
  | here {cycle : Cycle} {r : Resumption} {rest : List Resumption} {state : RunState} {s : Sums}
      (hstate : r.state = some state) (hr : Accounted r)
      (hs : accumulate p fuel cycle r.dt state.remaining = .ok s) :
      Called p fuel m cycle (r :: rest) s
  | later {cycle : Cycle} {r : Resumption} {rest : List Resumption} {state : RunState} {a : Account}
      {s : Sums} (hstate : r.state = some state) (hr : Continues r)
      (ha : account p fuel m cycle r.dt state.remaining = .ok a)
      (h : Called p fuel m (cycle.next a) rest s) :
      Called p fuel m cycle (r :: rest) s

/-- The run calls `mitigate` with the sums `s`: the setup and the first record went well,
and the loop after them makes the call. -/
def CalledInRun (p : Profile) (fuel : Option U32) (wctpf : Option U64) (env : RunEnv)
    (s : Sums) : Prop :=
  env.setup = none ∧ env.sent = true ∧
    Called p fuel (.forRun wctpf) (initialCycle.next (initialAccount wctpf)) env.resumptions s

/-- The accounting of the resumption at position `l` is reached, when `t` nanoseconds and
`n` units of fuel have been counted before: all earlier resumptions go on to the next one,
and neither accumulator has overflowed. -/
structure Reached (p : Profile) (f : U32) (t n : ℕ) (rs : List Resumption) (l : ℕ) : Prop where
  before : ∀ r ∈ rs.take l, Continues r
  accounted : ∃ r, rs[l]? = some r ∧ Accounted r
  time : t + ((rs.take (l + 1)).map fun r => r.dt.nanos).sum < bound
  fuel : p = .checked → n + spent f (rs.take (l + 1)) < 2 ^ 32

section Reached

variable {p : Profile} {f : U32} {t n : ℕ} {r : Resumption} {rest : List Resumption} {l : ℕ}

theorem not_reached_nil : ¬ Reached p f t n [] l := by
  intro h
  obtain ⟨r, hr, -⟩ := h.accounted
  simp at hr

theorem reached_zero : Reached p f t n (r :: rest) 0 ↔
    Accounted r ∧ t + r.dt.nanos < bound ∧ (p = .checked → n + consumed f r < 2 ^ 32) := by
  constructor
  · intro h
    obtain ⟨r', hr', hacc⟩ := h.accounted
    obtain rfl := Option.some.inj hr'
    exact ⟨hacc, by simpa using h.time, by simpa using h.fuel⟩
  · rintro ⟨hacc, htime, hfuel⟩
    exact ⟨by simp, ⟨r, rfl, hacc⟩, by simpa using htime, by simpa using hfuel⟩

theorem reached_succ : Reached p f t n (r :: rest) (l + 1) ↔
    Continues r ∧ Reached p f (t + r.dt.nanos) (n + consumed f r) rest l := by
  constructor
  · intro h
    have hbefore := h.before
    rw [List.take_succ_cons, List.forall_mem_cons] at hbefore
    refine ⟨hbefore.1, hbefore.2, by simpa using h.accounted, ?_, ?_⟩
    · simpa [add_assoc] using h.time
    · simpa [add_assoc] using h.fuel
  · rintro ⟨hr, h⟩
    refine ⟨?_, by simpa using h.accounted, ?_, ?_⟩
    · rw [List.take_succ_cons, List.forall_mem_cons]
      exact ⟨hr, h.before⟩
    · simpa [add_assoc] using h.time
    · simpa [add_assoc] using h.fuel

theorem Continues.accounted (h : Continues r) : Accounted r := by
  obtain ⟨⟨rem, hstate⟩, haccessed, -⟩ := h
  exact ⟨_, hstate, fun _ => haccessed⟩

/-- What comes after a resumption is only reached over its own accounting. -/
theorem Reached.room (h : Reached p f t n (r :: rest) l) :
    t + r.dt.nanos < bound ∧ (p = .checked → n + consumed f r < 2 ^ 32) := by
  have htime := h.time
  have hfuel := h.fuel
  rw [List.take_succ_cons, List.map_cons, List.sum_cons] at htime
  rw [List.take_succ_cons, spent_cons] at hfuel
  refine ⟨by omega, fun hp => ?_⟩
  have hlt := hfuel hp
  omega

end Reached

/-- On no fuel at all the average cannot be computed, whether or not it is needed. -/
theorem mitigate_zero (p : Profile) (m : Mitigator) (accT : Duration) :
    m.mitigate p accT (some 0) = .error .divByZero := by
  have havg : avgtpf p accT 0 = .error .divByZero := by
    simp only [avgtpf, mul_eq_ok p (picos_fit accT), ok_bind]
    rfl
  simp only [Mitigator.mitigate, havg]
  rfl

theorem mitigate_ok (p : Profile) (wctpf : Option U64) (accT : Duration) {b : U32} (hb : b ≠ 0) :
    ∃ irq, (Mitigator.forRun wctpf).mitigate p accT (some b) = .ok irq := by
  cases wctpf with
  | none =>
    obtain ⟨avg, havg, -⟩ := avgtpf_eq p accT hb
    refine ⟨none, ?_⟩
    simp only [Mitigator.mitigate, havg]
    rfl
  | some w => exact ⟨_, mitigate_forRun p w ⟨accT, b, hb⟩⟩

section Metered

variable {p : Profile} {f : U32} {wctpf : Option U64} {cycle : Cycle} {t n : ℕ}
variable {dt : Duration} {remaining : U32}

/-- The accounting of one resumption: it overflows, or the total is a multiple of 2^32 and
`mitigate` is called with no fuel, or it succeeds. -/
theorem account_cases (h : Totals p cycle.accT cycle.accF t n) (hle : remaining.toNat ≤ f.toNat) :
    (¬ (t + dt.nanos < bound ∧ (p = .checked → n + (f.toNat - remaining.toNat) < 2 ^ 32)) ∧
        ∃ e, e ≠ Panic.divByZero ∧ accumulate p (some f) cycle dt (some remaining) = .error e) ∨
      ∃ s b, (t + dt.nanos < bound ∧ (p = .checked → n + (f.toNat - remaining.toNat) < 2 ^ 32)) ∧
        accumulate p (some f) cycle dt (some remaining) = .ok s ∧ s.accF = some b ∧
        (b = 0 ↔ (n + (f.toNat - remaining.toNat)) % 2 ^ 32 = 0) ∧
        Totals p s.accT s.accF (t + dt.nanos) (n + (f.toNat - remaining.toNat)) := by
  obtain ⟨rfl, b, hb, hrep⟩ := h
  have hspent : (f - remaining).toNat = f.toNat - remaining.toNat :=
    BitVec.toNat_sub_of_le (BitVec.le_def.mpr hle)
  simp only [accumulate, zipWith_some, sub_eq_ok p hle, hb, Except.map, ok_bind]
  by_cases htime : cycle.accT.nanos + dt.nanos < bound
  · simp only [Duration.add_eq_ok htime, ok_bind]
    cases hsum : add p b (f - remaining) with
    | error e =>
      left
      obtain ⟨rfl, rfl, hover⟩ := add_eq_error hsum
      rw [hrep.2 rfl, hspent] at hover
      exact ⟨fun hroom => Nat.not_lt_of_le hover (hroom.2 rfl), .addOverflow, by simp, rfl⟩
    | ok c =>
      right
      have hnext := hrep.add hsum
      rw [hspent] at hnext
      refine ⟨_, c, ⟨htime, ?_⟩, rfl, rfl, ?_, rfl, c, rfl, hnext⟩
      · rintro rfl
        rw [← hnext.2 rfl]
        exact c.isLt
      · rw [← hnext.toNat_mod, toNat_eq_zero_iff]
  · refine .inl ⟨fun hroom => htime hroom.1, .message "overflow when adding durations", ?_, ?_⟩
    · simp
    · simp only [Duration.add_eq_error htime]
      rfl

/-- The accounting of a resumption that returned, in a metered run. -/
theorem resumption_cases (wctpf : Option U64) {r : Resumption} {rest : List Resumption}
    {state : RunState}
    (h : Totals p cycle.accT cycle.accF t n) (hmetered : Metered f (r :: rest))
    (hstate : r.state = some state) :
    (¬ (t + r.dt.nanos < bound ∧ (p = .checked → n + consumed f r < 2 ^ 32)) ∧
        ∃ e, e ≠ Panic.divByZero ∧
          accumulate p (some f) cycle r.dt state.remaining = .error e ∧
          account p (some f) (.forRun wctpf) cycle r.dt state.remaining = .error e) ∨
      ((t + r.dt.nanos < bound ∧ (p = .checked → n + consumed f r < 2 ^ 32)) ∧
        ∃ s, accumulate p (some f) cycle r.dt state.remaining = .ok s ∧
          (((n + consumed f r) % 2 ^ 32 = 0 ∧ s.accF = some 0 ∧
              account p (some f) (.forRun wctpf) cycle r.dt state.remaining =
                .error .divByZero) ∨
            ((n + consumed f r) % 2 ^ 32 ≠ 0 ∧ s.accF ≠ some 0 ∧
              ∃ a, account p (some f) (.forRun wctpf) cycle r.dt state.remaining = .ok a ∧
                Totals p (cycle.next a).accT (cycle.next a).accF (t + r.dt.nanos)
                  (n + consumed f r)))) := by
  obtain ⟨remaining, hrem, hle⟩ := hmetered r (List.mem_cons_self ..) state hstate
  have hconsumed : consumed f r = f.toNat - remaining.toNat := by
    rw [consumed, hstate, Option.bind_some, hrem]
    rfl
  rw [hconsumed, hrem, account_eq]
  rcases account_cases h hle with ⟨hroom, e, hne, he⟩ | ⟨s, b, hroom, hs, hb, hzero, htotals⟩
  · refine .inl ⟨hroom, e, hne, he, ?_⟩
    rw [he]
    rfl
  · refine .inr ⟨hroom, s, hs, ?_⟩
    rw [hs, ok_bind, hb]
    by_cases hb0 : b = 0
    · subst hb0
      refine .inl ⟨hzero.mp rfl, rfl, ?_⟩
      rw [mitigate_zero]
      rfl
    · obtain ⟨irq, hirq⟩ := mitigate_ok p wctpf s.accT hb0
      refine .inr ⟨fun h0 => hb0 (hzero.mpr h0), by simpa using hb0,
        ⟨s.df, s.accT, s.accF, irq⟩, ?_, htotals⟩
      rw [hirq, ok_bind, hb]
      rfl

/-- Some accounting that is reached brings the total to a multiple of 2^32. -/
def ZeroReached (p : Profile) (f : U32) (t n : ℕ) (rs : List Resumption) : Prop :=
  ∃ l, Reached p f t n rs l ∧ (n + spent f (rs.take (l + 1))) % 2 ^ 32 = 0

theorem not_zeroReached_nil : ¬ ZeroReached p f t n [] := by
  rintro ⟨l, hl, -⟩
  exact not_reached_nil hl

theorem zeroReached_cons {r : Resumption} {rest : List Resumption} :
    ZeroReached p f t n (r :: rest) ↔
      (Accounted r ∧ (t + r.dt.nanos < bound ∧ (p = .checked → n + consumed f r < 2 ^ 32)) ∧
          (n + consumed f r) % 2 ^ 32 = 0) ∨
        (Continues r ∧ ZeroReached p f (t + r.dt.nanos) (n + consumed f r) rest) := by
  constructor
  · rintro ⟨l, hl, hzero⟩
    cases l with
    | zero =>
      obtain ⟨hacc, hroom⟩ := reached_zero.mp hl
      exact .inl ⟨hacc, hroom, by simpa using hzero⟩
    | succ l =>
      obtain ⟨hr, hl⟩ := reached_succ.mp hl
      exact .inr ⟨hr, l, hl, by simpa [add_assoc] using hzero⟩
  · rintro (⟨hacc, hroom, hzero⟩ | ⟨hr, l, hl, hzero⟩)
    · exact ⟨0, reached_zero.mpr ⟨hacc, hroom⟩, by simpa using hzero⟩
    · exact ⟨l + 1, reached_succ.mpr ⟨hr, hl⟩, by simpa [add_assoc] using hzero⟩

/-- Past a resumption whose accounting overflows nothing is reached. -/
theorem room_of_zeroReached {r : Resumption} {rest : List Resumption}
    (h : ZeroReached p f t n (r :: rest)) :
    t + r.dt.nanos < bound ∧ (p = .checked → n + consumed f r < 2 ^ 32) := by
  obtain ⟨l, hl, -⟩ := h
  exact hl.room

theorem called_zero_iff (wctpf : Option U64) (rs : List Resumption)
    (h : Totals p cycle.accT cycle.accF t n)
    (hmetered : Metered f rs) :
    (∃ s, Called p (some f) (.forRun wctpf) cycle rs s ∧ s.accF = some 0) ↔
      ZeroReached p f t n rs := by
  induction rs generalizing cycle t n with
  | nil =>
    refine ⟨?_, fun hzero => absurd hzero not_zeroReached_nil⟩
    rintro ⟨s, hs, -⟩
    cases hs
  | cons r rest ih =>
    have hrest : Metered f rest := fun x hx => hmetered x (List.mem_cons_of_mem _ hx)
    constructor
    · rintro ⟨s, hs, hzero⟩
      cases hs with
      | here hstate hr hs =>
        rcases resumption_cases wctpf h hmetered hstate with
          ⟨-, e, -, he, -⟩ | ⟨hroom, s', hs', hcase⟩
        · rw [he] at hs
          cases hs
        · obtain rfl := Except.ok.inj (hs'.symm.trans hs)
          rcases hcase with ⟨htotal, -, -⟩ | ⟨-, hne, -⟩
          · exact zeroReached_cons.mpr (.inl ⟨hr, hroom, htotal⟩)
          · exact absurd hzero hne
      | later hstate hr ha hs =>
        rcases resumption_cases wctpf h hmetered hstate with
          ⟨-, e, -, -, he⟩ | ⟨-, s', -, ⟨-, -, he⟩ | ⟨-, -, a', ha', htotals⟩⟩
        · rw [he] at ha
          cases ha
        · rw [he] at ha
          cases ha
        · obtain rfl := Except.ok.inj (ha'.symm.trans ha)
          exact zeroReached_cons.mpr (.inr ⟨hr, (ih htotals hrest).mp ⟨s, hs, hzero⟩⟩)
    · intro hreached
      have hroom := room_of_zeroReached hreached
      have hacc : Accounted r := by
        rcases zeroReached_cons.mp hreached with ⟨hacc, -⟩ | ⟨hr, -⟩
        · exact hacc
        · exact hr.accounted
      obtain ⟨state, hstate, -⟩ := id hacc
      rcases resumption_cases wctpf h hmetered hstate with
        ⟨hfull, -⟩ | ⟨-, s, hs, ⟨-, hzero, -⟩ | ⟨hne, -, a, ha, htotals⟩⟩
      · exact absurd hroom hfull
      · exact ⟨s, .here hstate hacc hs, hzero⟩
      · rcases zeroReached_cons.mp hreached with ⟨-, -, hzero⟩ | ⟨hr, hlater⟩
        · exact absurd hzero hne
        · obtain ⟨s', hs', hzero⟩ := (ih htotals hrest).mpr hlater
          exact ⟨s', .later hstate hr ha hs', hzero⟩

variable {logger : WasmRunLogger}

theorem report_of_error {fuel : Option U32} {m : Mitigator} {r : Resumption}
    {rem : Option U32} {e : Panic} (h : account p fuel m cycle r.dt rem = .error e) :
    report p fuel m logger cycle r rem = .stop (.panicked e) := by
  unfold report
  rw [h]
  rfl

theorem report_of_ok {fuel : Option U32} {m : Mitigator} {r : Resumption} {rem : Option U32}
    {a : Account} (h : account p fuel m cycle r.dt rem = .ok a) :
    report p fuel m logger cycle r rem =
      if r.sent = true then ⟨[logger.record r.current cycle.fuelCycle r.dt a], .ok a⟩
      else .stop (.failed .send) := by
  unfold report WasmRunLogger.log
  rw [h]
  cases r.sent <;> rfl

/-- How one round of the loop ends when its accounting succeeds. -/
theorem runLoop_of_ok (logger : WasmRunLogger) {fuel : Option U32} {m : Mitigator}
    {r : Resumption} (rest : List Resumption) {state : RunState} {a : Account}
    (hstate : r.state = some state)
    (hacc : Accounted r) (ha : account p fuel m cycle r.dt state.remaining = .ok a) :
    (Continues r ∧ (runLoop p fuel m logger cycle (r :: rest)).result =
        (runLoop p fuel m logger (cycle.next a) rest).result) ∨
      (¬ Continues r ∧ (runLoop p fuel m logger cycle (r :: rest)).result ≠
        .error (.panicked .divByZero)) := by
  obtain ⟨state', hstate', haccessed⟩ := hacc
  obtain rfl := Option.some.inj (hstate.symm.trans hstate')
  rw [runLoop, hstate]
  cases state with
  | finished rem =>
    have ha' : account p fuel m cycle r.dt rem = .ok a := ha
    refine .inr ⟨?_, ?_⟩
    · rintro ⟨⟨rem', hres⟩, -⟩
      rw [hstate] at hres
      cases hres
    · simp only [report_of_ok ha']
      cases r.sent <;> simp [bind]
  | resumable rem =>
    have ha' : account p fuel m cycle r.dt rem = .ok a := ha
    have hr : r.accessed = true := haccessed ⟨rem, rfl⟩
    simp only [hr, if_true, report_of_ok ha']
    cases hsent : r.sent with
    | false => exact .inr ⟨fun h => absurd h.2.2.1 (by simp [hsent]), by simp⟩
    | true =>
      cases hrefueled : r.refueled with
      | false => exact .inr ⟨fun h => absurd h.2.2.2 (by simp [hrefueled]), by simp [bind]⟩
      | true => exact .inl ⟨⟨⟨rem, hstate⟩, hr, hsent, hrefueled⟩, rfl⟩

/-- A panic of the accounting is that of the loop. -/
theorem runLoop_of_error {fuel : Option U32} {m : Mitigator} {r : Resumption}
    {rest : List Resumption} {state : RunState} {e : Panic} (hstate : r.state = some state)
    (hacc : Accounted r) (he : account p fuel m cycle r.dt state.remaining = .error e) :
    (runLoop p fuel m logger cycle (r :: rest)).result = .error (.panicked e) := by
  obtain ⟨state', hstate', haccessed⟩ := hacc
  obtain rfl := Option.some.inj (hstate.symm.trans hstate')
  unfold runLoop
  rw [hstate]
  cases state with
  | finished rem =>
    have he' : account p fuel m cycle r.dt rem = .error e := he
    simp only [report_of_error he', stop_bind, stop_result]
  | resumable rem =>
    have he' : account p fuel m cycle r.dt rem = .error e := he
    simp only [haccessed ⟨rem, rfl⟩, if_true, report_of_error he', stop_bind, stop_result]

theorem runLoop_of_not_accounted {fuel : Option U32} {m : Mitigator} {r : Resumption}
    {rest : List Resumption} (hacc : ¬ Accounted r) :
    (runLoop p fuel m logger cycle (r :: rest)).result ≠ .error (.panicked .divByZero) := by
  unfold runLoop
  cases hstate : r.state with
  | none => simp
  | some state =>
    cases state with
    | finished rem =>
      refine absurd ⟨_, hstate, ?_⟩ hacc
      rintro ⟨rem', hres⟩
      cases hres
    | resumable rem =>
      cases haccessed : r.accessed with
      | false => simp
      | true => exact absurd ⟨_, hstate, fun _ => haccessed⟩ hacc

/-- The loop panics on the average exactly when such a total is reached. -/
theorem runLoop_aborts_iff (rs : List Resumption) (h : Totals p cycle.accT cycle.accF t n)
    (hmetered : Metered f rs) :
    (runLoop p (some f) (.forRun wctpf) logger cycle rs).result = .error (.panicked .divByZero) ↔
      ZeroReached p f t n rs := by
  induction rs generalizing cycle t n with
  | nil =>
    refine ⟨fun habort => ?_, fun hzero => absurd hzero not_zeroReached_nil⟩
    simp [runLoop] at habort
  | cons r rest ih =>
    have hrest : Metered f rest := fun x hx => hmetered x (List.mem_cons_of_mem _ hx)
    by_cases hacc : Accounted r
    · obtain ⟨state, hstate, -⟩ := id hacc
      rcases resumption_cases wctpf h hmetered hstate with
        ⟨hfull, e, hne, -, he⟩ | ⟨hroom, s, -, ⟨hzero, -, he⟩ | ⟨hne, -, a, ha, htotals⟩⟩
      · rw [runLoop_of_error hstate hacc he]
        refine ⟨fun habort => ?_, fun hzero => absurd (room_of_zeroReached hzero) hfull⟩
        simp only [Except.error.injEq, Stop.panicked.injEq] at habort
        exact absurd habort hne
      · rw [runLoop_of_error hstate hacc he]
        exact ⟨fun _ => zeroReached_cons.mpr (.inl ⟨hacc, hroom, hzero⟩), fun _ => rfl⟩
      · have hcons : ZeroReached p f t n (r :: rest) ↔
            Continues r ∧ ZeroReached p f (t + r.dt.nanos) (n + consumed f r) rest := by
          rw [zeroReached_cons]
          exact or_iff_right fun hfirst => hne hfirst.2.2
        rw [hcons]
        rcases runLoop_of_ok logger rest hstate hacc ha with
          ⟨hr, hresult⟩ | ⟨hr, hresult⟩
        · rw [hresult, ih htotals hrest]
          exact (and_iff_right hr).symm
        · exact ⟨fun habort => absurd habort hresult, fun hlater => absurd hlater.1 hr⟩
    · refine ⟨fun habort => absurd habort (runLoop_of_not_accounted hacc), fun hzero => ?_⟩
      rcases zeroReached_cons.mp hzero with ⟨hacc', -⟩ | ⟨hr, -⟩
      · exact absurd hacc' hacc
      · exact absurd hr.accounted hacc

end Metered

/-- Without a fuel limit the sums carry no fuel. -/
theorem accumulate_unmetered (p : Profile) (cycle : Cycle) (dt : Duration)
    (remaining : Option U32) :
    (∃ accT, accumulate p none cycle dt remaining = .ok ⟨none, accT, none⟩) ∨
      ∃ e, e ≠ Panic.divByZero ∧ accumulate p none cycle dt remaining = .error e := by
  have hdf : ∀ op : U32 → U32 → Except Panic U32, zipWith op remaining none = .ok none := by
    cases remaining <;> intro op <;> rfl
  have haccF : ∀ op : U32 → U32 → Except Panic U32, zipWith op cycle.accF none = .ok none := by
    cases cycle.accF <;> intro op <;> rfl
  unfold accumulate Duration.add
  rw [hdf, ok_bind]
  split
  · simp only [ok_bind, haccF]
    exact .inl ⟨_, rfl⟩
  · exact .inr ⟨.message "overflow when adding durations", by simp, rfl⟩

theorem Called.unmetered {p : Profile} {m : Mitigator} {cycle : Cycle} {rs : List Resumption}
    {s : Sums} (h : Called p none m cycle rs s) : s.accF = none := by
  induction h with
  | @here cycle r rest state s hstate hr hs =>
    rcases accumulate_unmetered p cycle r.dt state.remaining with ⟨accT, he⟩ | ⟨e, -, he⟩
    · obtain rfl := Except.ok.inj (he.symm.trans hs)
      rfl
    · rw [he] at hs
      cases hs
  | later _ _ _ _ ih => exact ih

theorem runLoop_unmetered {p : Profile} {wctpf : Option U64} {logger : WasmRunLogger}
    (rs : List Resumption) (cycle : Cycle) :
    (runLoop p none (.forRun wctpf) logger cycle rs).result ≠ .error (.panicked .divByZero) := by
  induction rs generalizing cycle with
  | nil => simp [runLoop]
  | cons r rest ih =>
    by_cases hacc : Accounted r
    · obtain ⟨state, hstate, -⟩ := id hacc
      have haccount := account_eq p none (.forRun wctpf) cycle r.dt state.remaining
      rcases accumulate_unmetered p cycle r.dt state.remaining with ⟨accT, hs⟩ | ⟨e, hne, he⟩
      · rw [hs] at haccount
        cases wctpf <;>
        · rcases runLoop_of_ok logger rest hstate hacc haccount with
            ⟨-, hresult⟩ | ⟨-, hresult⟩
          · rw [hresult]
            exact ih _
          · exact hresult
      · rw [he] at haccount
        rw [runLoop_of_error hstate hacc haccount]
        simpa using hne
    · exact runLoop_of_not_accounted hacc

/-- The condition on the inputs of a run: with a fuel limit, no accounting that is reached
brings the fuel spent to a multiple of 2^32, nothing at all included. -/
def Spends (p : Profile) (fuel : Option U32) (env : RunEnv) : Prop :=
  ∀ f, fuel = some f → env.setup = none → env.sent = true → ∀ l,
    Reached p f 0 0 env.resumptions l → spent f (env.resumptions.take (l + 1)) % 2 ^ 32 ≠ 0

theorem spends_some {p : Profile} {f : U32} {env : RunEnv} :
    Spends p (some f) env ↔
      (env.setup = none → env.sent = true → ¬ ZeroReached p f 0 0 env.resumptions) := by
  simp only [Spends, ZeroReached, Option.some.injEq, forall_eq', Nat.zero_add, not_exists,
    not_and]

theorem runWasm_result (p : Profile) (fuel : Option U32) (wctpf : Option U64)
    (logger : WasmRunLogger) (env : RunEnv) :
    (env.setup = none ∧ env.sent = true ∧
        (runWasm p fuel wctpf logger env).result =
          (runLoop p fuel (.forRun wctpf) logger (initialCycle.next (initialAccount wctpf))
            env.resumptions).result) ∨
      (¬ (env.setup = none ∧ env.sent = true) ∧
        (runWasm p fuel wctpf logger env).result ≠ .error (.panicked .divByZero)) := by
  unfold runWasm WasmRunLogger.log
  cases env.setup with
  | some step => exact .inr ⟨by simp, by simp⟩
  | none =>
    cases env.sent with
    | false => exact .inr ⟨by simp, by simp⟩
    | true => exact .inl ⟨rfl, rfl, rfl⟩

/-- In a run that can be produced under its fuel limit, every call of `mitigate` has some
fuel to divide by, and no run ends on that division, exactly when the condition holds. -/
theorem divisor_iff (p : Profile) (fuel : Option U32) (wctpf : Option U64)
    (logger : WasmRunLogger) (env : RunEnv)
    (hmetered : ∀ f, fuel = some f → Metered f env.resumptions) :
    ((∀ s, CalledInRun p fuel wctpf env s → s.accF ≠ some 0) ↔ Spends p fuel env) ∧
      ((runWasm p fuel wctpf logger env).result ≠ .error (.panicked .divByZero) ↔
        Spends p fuel env) := by
  cases fuel with
  | none =>
    have hspends : Spends p none env := by
      intro f hf
      cases hf
    refine ⟨iff_of_true ?_ hspends, iff_of_true ?_ hspends⟩
    · rintro s ⟨-, -, hs⟩
      rw [hs.unmetered]
      simp
    · rcases runWasm_result p none wctpf logger env with ⟨-, -, hresult⟩ | ⟨-, hresult⟩
      · rw [hresult]
        exact runLoop_unmetered _ _
      · exact hresult
  | some f =>
    have htotals : Totals p (initialCycle.next (initialAccount wctpf)).accT
        (initialCycle.next (initialAccount wctpf)).accF 0 0 := initial_totals p
    have hcalled := called_zero_iff wctpf env.resumptions htotals (hmetered f rfl)
    rw [spends_some]
    constructor
    · constructor
      · intro hnever hsetup hsent hzero
        obtain ⟨s, hs, h0⟩ := hcalled.mpr hzero
        exact hnever s ⟨hsetup, hsent, hs⟩ h0
      · rintro hnot s ⟨hsetup, hsent, hs⟩ h0
        exact hnot hsetup hsent (hcalled.mp ⟨s, hs, h0⟩)
    · rcases runWasm_result p (some f) wctpf logger env with
        ⟨hsetup, hsent, hresult⟩ | ⟨hstopped, hresult⟩
      · rw [hresult, Ne, runLoop_aborts_iff _ htotals (hmetered f rfl)]
        exact ⟨fun hnot _ _ => hnot, fun hnot => hnot hsetup hsent⟩
      · exact ⟨fun _ hsetup hsent => absurd ⟨hsetup, hsent⟩ hstopped, fun _ => hresult⟩

/-- One resumption that ends with the fuel `rem` it was granted, or a part of it. -/
def oneCycle (rem : U32) : RunEnv where
  epoch := .zero
  setup := none
  start := .ofNanos 3000
  sent := true
  resumptions :=
    [⟨.ofNanos 5000, .ofNanos 700005000, some (.resumable (some rem)), true, true, true⟩]

/-- Half of the ten units granted are spent. -/
theorem divisor_iff_spent :
    ((∀ s, CalledInRun .checked (some 10) none (oneCycle 5) s → s.accF ≠ some 0) ↔
        Spends .checked (some 10) (oneCycle 5)) ∧
      ((runWasm .checked (some 10) none ⟨.zero, some 10, none, 0, 0, 0⟩ (oneCycle 5)).result ≠
          .error (.panicked .divByZero) ↔ Spends .checked (some 10) (oneCycle 5)) :=
  divisor_iff .checked (some 10) none ⟨.zero, some 10, none, 0, 0, 0⟩ (oneCycle 5)
    (fun f hf => by
      obtain rfl := Option.some.inj hf
      decide)

/-- With `--fuel 0` the first resumption returns at once, and the run panics. -/
theorem no_fuel_aborts :
    ¬ ∀ (p : Profile) (fuel : Option U32) (wctpf : Option U64) (logger : WasmRunLogger)
      (env : RunEnv), (∀ f, fuel = some f → Metered f env.resumptions) →
      (∀ s, CalledInRun p fuel wctpf env s → s.accF ≠ some 0) ∧
        (runWasm p fuel wctpf logger env).result ≠ .error (.panicked .divByZero) := by
  intro h
  have hmetered : ∀ f, some (0 : U32) = some f → Metered f (oneCycle 0).resumptions := by
    intro f hf
    obtain rfl := Option.some.inj hf
    decide
  exact (h .checked (some 0) none ⟨.zero, some 0, none, 0, 0, 0⟩ (oneCycle 0) hmetered).2 rfl

end InterferenceMitigation.FuelDivisor
