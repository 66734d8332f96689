import InterferenceMitigation.LockSafety
import InterferenceMitigation.UartWriter

/-!
The serial line, shared by the logger of all cores and the writer of the records. A message
is sent by the closure of one `lock_irq` call on the driver: the logger asks the driver again
until a byte is taken, the writer asks once for each byte. Between the attempts of one core
the other cores run, take interrupts and call the lock themselves. The line nevertheless only
ever carries whole messages one after another, and those of the logger without a gap.
-/

namespace InterferenceMitigation.Console

open MachineInt Transition InterruptLock LockSafety

/-- `log::Level`. -/
inductive Level
  | error
  | warn
  | info
  | debug
  | trace
  deriving DecidableEq, Repr

def Level.name : Level → String
  | .error => "ERROR"
  | .warn => "WARN"
  | .info => "INFO"
  | .debug => "DEBUG"
  | .trace => "TRACE"

def utf8 (text : String) : List U8 := text.toUTF8.toList.map fun b => b.toBitVec

/-- What a call of `Logger::log` or `UartWriter::write` is asked to send. -/
inductive Message
  | log (level : Level) (args : List U8)
  | write (buf : List U8)
  deriving DecidableEq, Repr

/-- The bytes offered to the driver: the level in brackets, the text and a line feed, as
`writeln!` passes them on, or the buffer. -/
def Message.bytes : Message → List U8
  | .log level args => utf8 "[" ++ utf8 level.name ++ utf8 "] " ++ args ++ utf8 "\n"
  | .write buf => buf

/-- A byte that is not taken is offered again, by `nb::block!` in the logger. -/
def Message.retries : Message → Bool
  | .log _ _ => true
  | .write _ => false

/-- `UartWriter::write` returns before the lock when there is nothing to write. -/
def Message.locks : Message → Prop
  | .log _ _ => True
  | .write buf => buf ≠ []

/-- A message being sent: the bytes still to be offered and those that were taken. -/
structure Job where
  message : Message
  rest : List U8
  taken : List U8
  deriving DecidableEq, Repr

/-- `out` is what the driver has taken. The finished messages with what was taken of each, and
the messages asked for, are kept in their order. -/
structure State (K σ : Type*) where
  lock : InterruptLock.State K
  driver : σ
  out : List U8
  job : K → Option Job
  done : List (K × Job)
  asked : List (K × Message)

inductive Label (K : Type*)
  | lock (k : K) (a : Action)
  | begin (k : K) (message : Message)
  | offer (k : K)
  | finish (k : K)
  deriving DecidableEq, Repr

variable {K σ : Type*} [DecidableEq K] (d : UartWriter.Driver σ)

/-- What the answer of the driver to the next byte makes of a job. -/
def Job.offered (message : Message) (b : U8) (rest taken : List U8) :
    UartWriter.NbResult → Job
  | .ok => ⟨message, rest, taken ++ [b]⟩
  | .wouldBlock => if message.retries then ⟨message, b :: rest, taken⟩ else ⟨message, rest, taken⟩

/-- One step of one core. Calls on the serial driver are made to send a message, and their
closure ends when all bytes have been offered; everything else is up to the cores. -/
inductive Step : State K σ → Label K → State K σ → Prop
  | lock (s : State K σ) (k : K) (a : Action) (l : InterruptLock.State K)
      (h : InterruptLock.Step s.lock (k, a) l) (hcall : a ≠ .call .uart)
      (hunlock : a ≠ .unlock .uart) :
      Step s (.lock k a) { s with lock := l }
  | begin (s : State K σ) (k : K) (message : Message) (l : InterruptLock.State K)
      (h : InterruptLock.Step s.lock (k, .call .uart) l) (hidle : s.job k = none)
      (hlocks : message.locks) :
      Step s (.begin k message) { s with
        lock := l
        job := Function.update s.job k (some ⟨message, message.bytes, []⟩)
        asked := s.asked ++ [(k, message)] }
  | offer (s : State K σ) (k : K) (daif : Daif) (below : List Record) (message : Message)
      (b : U8) (rest taken : List U8)
      (hbody : (s.lock.core k).stack = .call .uart (.body daif) :: below)
      (hjob : s.job k = some ⟨message, b :: rest, taken⟩) :
      Step s (.offer k) { s with
        driver := (d.write s.driver b).2
        out := s.out ++ if (d.write s.driver b).1 = .ok then [b] else []
        job := Function.update s.job k
          (some (Job.offered message b rest taken (d.write s.driver b).1)) }
  | finish (s : State K σ) (k : K) (message : Message) (taken : List U8)
      (l : InterruptLock.State K) (h : InterruptLock.Step s.lock (k, .unlock .uart) l)
      (hjob : s.job k = some ⟨message, [], taken⟩) :
      Step s (.finish k) { s with
        lock := l
        job := Function.update s.job k none
        done := s.done ++ [(k, ⟨message, [], taken⟩)] }

/-- Nothing has been sent, and every core is in thread code. -/
structure State.Initial (s : State K σ) : Prop where
  lock : s.lock.Initial
  out : s.out = []
  job : ∀ k, s.job k = none
  done : s.done = []
  asked : s.asked = []

/-- What was taken is a part of the message in its order, and all of it so far where refused
bytes are offered again. -/
structure Job.Sound (j : Job) : Prop where
  part : (j.taken ++ j.rest).Sublist j.message.bytes
  whole : j.message.retries = true → j.taken ++ j.rest = j.message.bytes

theorem Job.start_sound (message : Message) : Job.Sound ⟨message, message.bytes, []⟩ where
  part := List.Sublist.refl _
  whole _ := rfl

theorem Job.offered_sound {message : Message} {b : U8} {rest taken : List U8}
    (h : Job.Sound ⟨message, b :: rest, taken⟩) (answer : UartWriter.NbResult) :
    (Job.offered message b rest taken answer).Sound := by
  have hskip : (taken ++ rest).Sublist (taken ++ b :: rest) :=
    (List.sublist_cons_self b rest).append_left taken
  cases answer with
  | ok =>
    have hsame : taken ++ [b] ++ rest = taken ++ b :: rest := by simp
    refine ⟨?_, ?_⟩
    · simpa only [Job.offered, hsame] using h.part
    · simpa only [Job.offered, hsame] using h.whole
  | wouldBlock =>
    cases hretries : message.retries with
    | true => simpa only [Job.offered, hretries, if_true] using h
    | false =>
      simp only [Job.offered, hretries, Bool.false_eq_true, if_false]
      exact ⟨hskip.trans h.part, fun hr => by simp [hretries] at hr⟩

theorem Job.offered_taken (message : Message) (b : U8) (rest taken : List U8)
    (answer : UartWriter.NbResult) :
    (Job.offered message b rest taken answer).taken =
      taken ++ if answer = .ok then [b] else [] := by
  cases answer with
  | ok => rfl
  | wouldBlock => cases hretries : message.retries <;> simp [Job.offered, hretries]

theorem Job.offered_message (message : Message) (b : U8) (rest taken : List U8)
    (answer : UartWriter.NbResult) :
    (Job.offered message b rest taken answer).message = message := by
  cases answer with
  | ok => rfl
  | wouldBlock => cases hretries : message.retries <;> simp [Job.offered, hretries]

/-- The bytes of the message in the closure of the owner of the driver. -/
def State.current (s : State K σ) : List U8 :=
  ((s.lock.owner .uart).bind s.job).elim [] Job.taken

/-- The messages of core `k`, in a list of messages with their cores. -/
def ofCore {α : Type*} (k : K) (xs : List (K × α)) : List α :=
  (xs.filter fun x => x.1 = k).map Prod.snd

theorem ofCore_concat {α : Type*} (k : K) (xs : List (K × α)) (j : K) (a : α) :
    ofCore k (xs ++ [(j, a)]) = ofCore k xs ++ if j = k then [a] else [] := by
  by_cases h : j = k <;> simp [ofCore, h]

structure Invariant (s : State K σ) : Prop where
  lock : InterruptLock.Invariant s.lock
  fresh : ∀ k j, s.job k = some j → s.lock.owner .uart ≠ some k → j.taken = []
  sound : ∀ k j, s.job k = some j → j.Sound
  done : ∀ x ∈ s.done, x.2.rest = [] ∧ x.2.Sound
  out : s.out = (s.done.map fun x => x.2.taken).flatten ++ s.current
  order : ∀ k, ofCore k s.asked =
    (ofCore k s.done).map Job.message ++ (s.job k).toList.map Job.message

theorem initial_invariant {s : State K σ} (h : s.Initial) : Invariant s where
  lock := InterruptLock.initial_invariant h.lock
  fresh k j hj := by simp [h.job] at hj
  sound k j hj := by simp [h.job] at hj
  done x hx := by simp [h.done] at hx
  out := by simp [h.out, h.done, State.current, h.lock.1]
  order k := by simp [h.asked, h.done, h.job, ofCore]

/-- What an instruction does to the owner of the serial driver. -/
theorem owner_uart {s t : InterruptLock.State K} {k : K} {a : Action}
    (h : InterruptLock.Step s (k, a) t) (ha : a ≠ .unlock .uart) :
    t.owner .uart = s.owner .uart ∨ (s.owner .uart = none ∧ t.owner .uart = some k) := by
  cases h with
  | core k a c h hfree hbusy =>
    cases a with
    | lock m =>
      by_cases hm : m = .uart
      · subst hm
        exact Or.inr ⟨hfree .uart rfl, by simp [ownerAfter]⟩
      · exact Or.inl (by simp [ownerAfter, Ne.symm hm])
    | unlock m =>
      have hm : m ≠ .uart := fun hm => ha (hm ▸ rfl)
      exact Or.inl (by simp [ownerAfter, Ne.symm hm])
    | _ => exact Or.inl rfl

theorem owner_of_unlock {s t : InterruptLock.State K} {k : K} {m : Driver}
    (hs : InterruptLock.Invariant s) (h : InterruptLock.Step s (k, .unlock m) t) :
    s.owner m = some k ∧ t.owner m = none := by
  have hheld := (step_own h).held
  refine ⟨(hs.agrees.mem_iff k m).mp (by simp [hheld]), ?_⟩
  cases h with
  | core k a c h hfree hbusy => simp [ownerAfter]

variable {d}
variable {s t : State K σ}

/-- A core takes the lock with nothing of its message sent, so the line does not move. -/
theorem Invariant.current_eq (hs : Invariant s) {l : InterruptLock.State K} {k : K} {a : Action}
    (h : InterruptLock.Step s.lock (k, a) l) (ha : a ≠ .unlock .uart) :
    ((l.owner .uart).bind s.job).elim [] Job.taken = s.current := by
  rcases owner_uart h ha with hsame | ⟨hfree, htaken⟩
  · rw [hsame]
    rfl
  · rw [State.current, hfree, htaken, Option.bind_some, Option.bind_none, Option.elim_none]
    cases hjob : s.job k with
    | none => rfl
    | some j => exact hs.fresh k j hjob (by simp [hfree])

theorem Invariant.fresh_after (hs : Invariant s) {l : InterruptLock.State K} {k : K} {a : Action}
    (h : InterruptLock.Step s.lock (k, a) l) (ha : a ≠ .unlock .uart) {i : K} {j : Job}
    (hj : s.job i = some j) (hother : l.owner .uart ≠ some i) : j.taken = [] := by
  apply hs.fresh i j hj
  rcases owner_uart h ha with hsame | ⟨hfree, -⟩
  · rwa [← hsame]
  · simp [hfree]

theorem Invariant.lock_step (hs : Invariant s) {l : InterruptLock.State K} {k : K} {a : Action}
    (h : InterruptLock.Step s.lock (k, a) l) (ha : a ≠ .unlock .uart) :
    Invariant { s with lock := l } where
  lock := invariant_step h hs.lock
  fresh _ _ hj hother := hs.fresh_after h ha hj hother
  sound := hs.sound
  done := hs.done
  out := by
    rw [State.current, hs.current_eq h ha]
    exact hs.out
  order := hs.order

theorem Invariant.begin_step (hs : Invariant s) {l : InterruptLock.State K} {k : K}
    {message : Message} (h : InterruptLock.Step s.lock (k, .call .uart) l)
    (hidle : s.job k = none) :
    Invariant { s with
      lock := l
      job := Function.update s.job k (some ⟨message, message.bytes, []⟩)
      asked := s.asked ++ [(k, message)] } where
  lock := invariant_step h hs.lock
  fresh i j hj hother := by
    by_cases hi : i = k
    · subst hi
      obtain rfl : j = ⟨message, message.bytes, []⟩ := by simpa [eq_comm] using hj
      rfl
    · exact hs.fresh_after h (by simp) (by simpa [hi] using hj) hother
  sound i j hj := by
    by_cases hi : i = k
    · subst hi
      obtain rfl : j = ⟨message, message.bytes, []⟩ := by simpa [eq_comm] using hj
      exact Job.start_sound message
    · exact hs.sound i j (by simpa [hi] using hj)
  done := hs.done
  out := by
    -- the new message of the core has nothing sent yet, and it had none before
    have hcurrent : ((l.owner .uart).bind (Function.update s.job k
        (some ⟨message, message.bytes, []⟩))).elim [] Job.taken =
          ((l.owner .uart).bind s.job).elim [] Job.taken := by
      cases l.owner .uart with
      | none => rfl
      | some i =>
        by_cases hi : i = k
        · subst hi
          simp [hidle]
        · simp [hi]
    rw [State.current, hcurrent, hs.current_eq h (by simp)]
    exact hs.out
  order i := by
    rw [ofCore_concat, hs.order i]
    by_cases hi : i = k
    · subst hi
      simp [hidle]
    · simp [hi, Ne.symm hi]

theorem Invariant.offer_step (hs : Invariant s) {k : K} {daif : Daif} {below : List Record}
    {message : Message} {b : U8} {rest taken : List U8}
    (hbody : (s.lock.core k).stack = .call .uart (.body daif) :: below)
    (hjob : s.job k = some ⟨message, b :: rest, taken⟩) (answer : UartWriter.NbResult)
    (driver : σ) :
    Invariant { s with
      driver := driver
      out := s.out ++ if answer = .ok then [b] else []
      job := Function.update s.job k (some (Job.offered message b rest taken answer)) } where
  lock := hs.lock
  fresh i j hj hother := by
    by_cases hi : i = k
    · subst hi
      have hown : s.lock.owner .uart = some i :=
        (hs.lock.agrees.mem_iff i .uart).mp (by simp [hbody, held])
      exact absurd hown hother
    · exact hs.fresh i j (by simpa [hi] using hj) hother
  sound i j hj := by
    by_cases hi : i = k
    · subst hi
      obtain rfl : j = Job.offered message b rest taken answer := by simpa [eq_comm] using hj
      exact Job.offered_sound (hs.sound i _ hjob) answer
    · exact hs.sound i j (by simpa [hi] using hj)
  done := hs.done
  out := by
    have hown : s.lock.owner .uart = some k :=
      (hs.lock.agrees.mem_iff k .uart).mp (by simp [hbody, held])
    have hout := hs.out
    simp only [State.current, hown, Option.bind_some, hjob, Option.elim_some] at hout
    simp only [State.current, hown, Option.bind_some, Function.update_self, Option.elim_some,
      Job.offered_taken, hout, List.append_assoc]
  order i := by
    rw [hs.order i]
    by_cases hi : i = k
    · subst hi
      simp [hjob, Job.offered_message]
    · simp [hi]

theorem Invariant.finish_step (hs : Invariant s) {l : InterruptLock.State K} {k : K}
    {message : Message} {taken : List U8} (h : InterruptLock.Step s.lock (k, .unlock .uart) l)
    (hjob : s.job k = some ⟨message, [], taken⟩) :
    Invariant { s with
      lock := l
      job := Function.update s.job k none
      done := s.done ++ [(k, ⟨message, [], taken⟩)] } where
  lock := invariant_step h hs.lock
  fresh i j hj hother := by
    have hi : i ≠ k := by
      rintro rfl
      simp at hj
    obtain ⟨hown, -⟩ := owner_of_unlock hs.lock h
    refine hs.fresh i j (by simpa [hi] using hj) ?_
    rw [hown]
    exact fun heq => hi (Option.some.inj heq).symm
  sound i j hj := by
    have hi : i ≠ k := by
      rintro rfl
      simp at hj
    exact hs.sound i j (by simpa [hi] using hj)
  done x hx := by
    rcases List.mem_append.mp hx with hold | hnew
    · exact hs.done x hold
    · obtain rfl := List.mem_singleton.mp hnew
      exact ⟨rfl, hs.sound k _ hjob⟩
  out := by
    obtain ⟨hown, hfree⟩ := owner_of_unlock hs.lock h
    have hout := hs.out
    simp only [State.current, hown, Option.bind_some, hjob, Option.elim_some] at hout
    simp [State.current, hfree, hout]
  order i := by
    rw [hs.order i, ofCore_concat]
    by_cases hi : i = k
    · subst hi
      simp [hjob]
    · simp [hi, Ne.symm hi]

theorem Invariant.step {l : Label K} (hs : Invariant s) (h : Step d s l t) : Invariant t := by
  cases h with
  | lock k a l h hcall hunlock => exact hs.lock_step h hunlock
  | begin k message l h hidle hlocks => exact hs.begin_step h hidle
  | offer k daif below message b rest taken hbody hjob => exact hs.offer_step hbody hjob _ _
  | finish k message taken l h hjob => exact hs.finish_step h hjob

/-- What the line carries, in one state. -/
structure Lines (s : State K σ) : Prop where
  -- whole messages, and what has been sent of the one in the closure of the owner
  out : s.out = (s.done.map fun x => x.2.taken).flatten ++ s.current
  between : s.lock.owner .uart = none → s.out = (s.done.map fun x => x.2.taken).flatten
  logged : ∀ k level args rest taken, (k, ⟨.log level args, rest, taken⟩) ∈ s.done →
    taken = (Message.log level args).bytes
  written : ∀ k buf rest taken, (k, ⟨.write buf, rest, taken⟩) ∈ s.done → taken.Sublist buf
  -- every core sends its messages in the order it was asked to
  order : ∀ k, ofCore k s.asked =
    (ofCore k s.done).map Job.message ++ (s.job k).toList.map Job.message

/-- For every interleaving of the cores, their interrupts and the answers of the driver, the
line carries whole messages one after another, those of the logger without a gap. -/
theorem messages_contiguous {s₀ : State K σ} (hinit : s₀.Initial)
    (hreach : Reaches (Step d) s₀ s) : Lines s := by
  have hs : Invariant s :=
    hreach.invariant (fun _ _ _ ha hstep => ha.step hstep) (initial_invariant hinit)
  refine ⟨hs.out, ?_, ?_, ?_, hs.order⟩
  · intro hfree
    rw [hs.out, State.current, hfree]
    simp
  · intro k level args rest taken hmem
    obtain ⟨hrest, hsound⟩ := hs.done _ hmem
    obtain rfl : rest = [] := hrest
    simpa using hsound.whole rfl
  · intro k buf rest taken hmem
    obtain ⟨hrest, hsound⟩ := hs.done _ hmem
    obtain rfl : rest = [] := hrest
    simpa [Message.bytes] using hsound.part

/-- Instructions that neither begin nor finish a message are taken over from the lock. -/
theorem run_lock (s : State K σ) {l l' : InterruptLock.State K} {ls : List (K × Action)}
    (h : Run InterruptLock.Step l ls l')
    (hls : ∀ x ∈ ls, x.2 ≠ .call .uart ∧ x.2 ≠ .unlock .uart) :
    Run (Step d) { s with lock := l } (ls.map fun x => .lock x.1 x.2) { s with lock := l' } := by
  induction h with
  | nil l => exact .nil _
  | @cons l₁ l₂ l₃ x ls hstep _ ih =>
    obtain ⟨hx, hrest⟩ := List.forall_mem_cons.mp hls
    exact .cons (.lock { s with lock := l₁ } x.1 x.2 l₂ hstep hx.1 hx.2) (ih hrest)

/-- A driver that takes every byte at once. -/
def readyDriver : UartWriter.Driver Unit := ⟨fun s _ => (.ok, s), fun s => (.ok, s)⟩

def silent : State Bool Unit := ⟨start, (), [], fun _ => none, [], []⟩

/-- A core sends two bytes, of which it has sent `out`. -/
def sending (l : InterruptLock.State Bool) (out rest : List U8) : State Bool Unit where
  lock := l
  driver := ()
  out := out
  job := Function.update (fun _ => none) false (some ⟨.write [65, 66], rest, out⟩)
  done := []
  asked := [(false, .write [65, 66])]

theorem sending_reaches :
    Reaches (Step readyDriver) silent (sending (inBody start false .uart 0 []) [65] [66]) := by
  have hcall := step_quiet start false (.call 0 [] .uart trivial) rfl rfl (by simp) (by simp)
  have hself : withCore start false ⟨0, []⟩ = start := withCore_self start false
  rw [hself] at hcall
  have hbegin : Step readyDriver silent _
      (sending (withCore start false ⟨0, [.call .uart .entry]⟩) [] [65, 66]) :=
    .begin silent false (.write [65, 66]) _ hcall rfl (by simp [Message.locks])
  have hlock := run_lock (d := readyDriver)
    (sending (withCore start false ⟨0, [.call .uart .entry]⟩) [] [65, 66])
    (run_inBody start false .uart 0 [] rfl) (by simp)
  have hoffer := Step.offer (d := readyDriver) (sending (inBody start false .uart 0 []) [] [65, 66])
    false 0 [] (.write [65, 66]) 65 [66] [] (by simp [sending, inBody, withCore]) rfl
  have hnext : Step readyDriver (sending (inBody start false .uart 0 []) [] [65, 66])
      (.offer false) (sending (inBody start false .uart 0 []) [65] [66]) := by
    simpa [sending, Job.offered, readyDriver] using hoffer
  exact ⟨_, .cons hbegin (hlock.append (.single hnext))⟩

theorem messages_contiguous_sending :
    Lines (sending (inBody start false .uart 0 []) [65] [66]) := by
  have hinit : silent.Initial :=
    ⟨⟨fun _ => rfl, fun _ => rfl⟩, rfl, fun _ => rfl, rfl, rfl⟩
  exact messages_contiguous hinit sending_reaches

end InterferenceMitigation.Console
