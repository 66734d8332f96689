import InterferenceMitigation.BufferedWriter
import InterferenceMitigation.LosslessForwarding
import InterferenceMitigation.Sweep
import InterferenceMitigation.TraceReader

/-!
The way of the records to the output file of the Linux runner. A task of `main` takes the
messages from the channel and writes each as a line of JSON through a buffer; it ends when
the channel is empty and nobody is left who could send, and with it the buffer is written.
The notebook reads the file line by line. When the runner and the task have ended, the lines
are the records that the children have sent, with their durations in 64 bits.
-/

namespace InterferenceMitigation.OutputFile

open BufferedWriter CompactJson Durations Forwarding FreezeControl GroupCommands
open LosslessForwarding MachineInt ProcessSetup RunWasm Sweep Telemetry TraceReader Transition

section Records

-- how the fields that are durations are written
variable (nanos : Duration → Json)

def irqJson : Irq → Json
  | .freeze id => object [("Freeze", .num id)]
  | .unfreeze id => object [("Unfreeze", .num id)]

def recordFields (x : WasmRunnerIpc) : List (String × Json) := [
  ("timestamp", nanos x.timestamp),
  ("fuel", option uint x.fuel),
  ("wctpf", option uint x.wctpf),
  ("i", .num x.i),
  ("j", .num x.j),
  ("k", .num x.k),
  ("l", .num x.l),
  ("dt", nanos x.dt),
  ("df", option uint x.df),
  ("acc_t", nanos x.accT),
  ("acc_f", option uint x.accF),
  ("irq", option irqJson x.irq)]

def recordJson (x : WasmRunnerIpc) : Json := object (recordFields nanos x)

/-- `"{}\n"` of the record. -/
def line (x : WasmRunnerIpc) : List Char := (recordJson nanos x).render ++ ['\n']

/-- `write_fmt` of the line, whose text is ASCII: a byte for each character. -/
def writeLine (w : BufWriter Char) (x : WasmRunnerIpc) (dev : Device × Device) :
    Bool × BufWriter Char :=
  w.writeFmt [((recordJson nanos x).render, dev.1), (['\n'], dev.2)]

end Records

/-- A duration is written as `as_nanos() as i64`. -/
def WritesNanos (nanos : Duration → Json) : Prop :=
  ∀ d, nanos d = .num (d.asNanos.setWidth 64).toInt

def lowNanos (d : Duration) : Duration :=
  ⟨d.nanos % 2 ^ 64, Nat.lt_of_le_of_lt (Nat.mod_le _ _) d.lt_bound⟩

/-- What the file keeps of a record: its durations modulo `2 ^ 64` ns. -/
def stored (x : WasmRunnerIpc) : WasmRunnerIpc :=
  { x with timestamp := lowNanos x.timestamp, dt := lowNanos x.dt, accT := lowNanos x.accT }

section Reader

/-- The blanks of JSON. -/
def jsonSpace (c : Char) : Bool := decide (c ∈ [' ', '\t', '\n', '\r'])

/-- `json.loads`: the text must be one value and blanks. -/
def loads (rawDecode : RawDecode) (text : List Char) : Option Json :=
  match rawDecode (text.dropWhile jsonSpace) with
  | none => none
  | some (value, idx) =>
    if ((text.dropWhile jsonSpace).drop idx).all jsonSpace then some value else none

/-- `[json.loads(line) for line in f]`. -/
def loadLines (rawDecode : RawDecode) (f : List Char) : Option (List Json) :=
  (readlines f).mapM (loads rawDecode)

end Reader

/-- The task that writes the records. -/
inductive OutPc
  | running
  | done (ok : Bool)
  deriving DecidableEq, Repr

/-- `main` with its two tasks, and the writer of the output file. -/
structure Main where
  runner : State WasmRunnerIpc
  out : OutPc
  writer : BufWriter Char

inductive MainEvent
  | runner (l : Label)
  | written
  | writeErr
  | finished
  | flushErr
  deriving DecidableEq, Repr

/-- Nobody is left who holds the sender of the channel: the forwarding task has ended, or
`run` has returned before it was started. -/
def SenderGone {T : Type*} (s : State T) : Prop :=
  s.fwd.Terminated ∨ s.Returned ∧ s.fwd = .unspawned

/-- The channel is the business of the writing task: it takes a message only to write it,
and closes the channel when it fails. When it ends, the writer is dropped: what is left in
the buffer is written, and a failure of that goes unnoticed. -/
inductive Step (nanos : Duration → Json) (cfg : Config) : Main → MainEvent → Main → Prop
  | runner (s : Main) (l : Label) (t : State WasmRunnerIpc) (hreceive : l ≠ .env .receive)
      (hclose : l ≠ .env .close) (h : Forwarding.Step cfg s.runner l t) :
      Step nanos cfg s (.runner l) { s with runner := t }
  | written (s : Main) (x : WasmRunnerIpc) (rest : List WasmRunnerIpc) (t : State WasmRunnerIpc)
      (dev : Device × Device) (hout : s.out = .running)
      (hchan : s.runner.stream.chan = x :: rest)
      (hwrite : (writeLine nanos s.writer x dev).1 = true)
      (h : EnvStep s.runner .receive t) :
      Step nanos cfg s .written
        { s with runner := t, writer := (writeLine nanos s.writer x dev).2 }
  | writeErr (s : Main) (x : WasmRunnerIpc) (rest : List WasmRunnerIpc)
      (t u : State WasmRunnerIpc) (dev : Device × Device) (room : Option ℕ)
      (hout : s.out = .running) (hchan : s.runner.stream.chan = x :: rest)
      (hwrite : (writeLine nanos s.writer x dev).1 = false) (h : EnvStep s.runner .receive t)
      (hclose : EnvStep t .close u) :
      Step nanos cfg s .writeErr
        ⟨u, .done false, ((writeLine nanos s.writer x dev).2.flushBuf room).2⟩
  | finished (s : Main) (room : Option ℕ) (hout : s.out = .running)
      (hchan : s.runner.stream.chan = []) (hgone : SenderGone s.runner)
      (hflush : (s.writer.flushBuf room).1 = true) :
      Step nanos cfg s .finished ⟨s.runner, .done true, (s.writer.flushBuf room).2⟩
  | flushErr (s : Main) (room : Option ℕ) (hout : s.out = .running)
      (hchan : s.runner.stream.chan = []) (hgone : SenderGone s.runner)
      (hflush : (s.writer.flushBuf room).1 = false) :
      Step nanos cfg s .flushErr ⟨s.runner, .done true, (s.writer.flushBuf room).2⟩

/-- The capacity that `BufWriter::new` gives to the buffer. -/
def bufSize : ℕ := 8 * 1024

def Main.new (cfg : Config) (groups : Groups) : Main := ⟨init cfg groups, .running, .new bufSize⟩

section Text

variable {nanos : Duration → Json}

theorem irqJson_plain (irq : Option Irq) : (option irqJson irq).Plain := by
  rcases irq with _ | (id | id)
  · trivial
  · exact ⟨List.nodup_singleton _, by decide, trivial, trivial⟩
  · exact ⟨List.nodup_singleton _, by decide, trivial, trivial⟩

theorem recordJson_plain (hnanos : WritesNanos nanos) (x : WasmRunnerIpc) :
    (recordJson nanos x).Plain := by
  have hplain : ∀ d, (nanos d).Plain := by
    intro d
    rw [hnanos d]
    trivial
  have hnames : (Fields.ofList (recordFields nanos x)).names = ["timestamp", "fuel", "wctpf",
      "i", "j", "k", "l", "dt", "df", "acc_t", "acc_f", "irq"] := rfl
  have hkeys : (recordFields nanos x).map Prod.fst = ["timestamp", "fuel", "wctpf",
      "i", "j", "k", "l", "dt", "df", "acc_t", "acc_f", "irq"] := rfl
  refine ⟨by rw [hnames]; decide, ofList_plain (by rw [hkeys]; decide) ?_⟩
  simp only [recordFields, List.map_cons, List.map_nil, List.forall_mem_cons]
  exact ⟨hplain _, (option_short (by decide) _).1, (option_short (by decide) _).1, trivial,
    trivial, trivial, trivial, hplain _, (option_short (by decide) _).1, hplain _,
    (option_short (by decide) _).1, irqJson_plain _, List.forall_mem_nil _⟩

theorem option_injective {α : Type} {value : α → Json} (h : Function.Injective value)
    (hnull : ∀ a, value a ≠ .null) : Function.Injective (option value) := by
  intro a b hab
  cases a with
  | none =>
    cases b with
    | none => rfl
    | some b => exact absurd hab.symm (hnull b)
  | some a =>
    cases b with
    | none => exact absurd hab (hnull a)
    | some b => exact congrArg some (h hab)

theorem uint_injective {w : ℕ} : Function.Injective (uint : BitVec w → Json) := by
  intro a b h
  exact BitVec.eq_of_toNat_eq (Int.ofNat_inj.mp (Json.num.inj h))

theorem irqJson_injective : Function.Injective irqJson := by
  intro a b h
  cases a <;> cases b <;> simp_all [irqJson, object, Fields.ofList]

/-- Two durations are written alike if and only if they agree modulo `2 ^ 64` ns. -/
theorem nanos_eq_iff (hnanos : WritesNanos nanos) (d d' : Duration) :
    nanos d = nanos d' ↔ lowNanos d = lowNanos d' := by
  have hlow : ∀ d : Duration, (d.asNanos.setWidth 64).toNat = d.nanos % 2 ^ 64 := by
    intro d
    rw [BitVec.toNat_setWidth, Duration.toNat_asNanos]
  rw [hnanos d, hnanos d', Json.num.injEq, BitVec.toInt_inj, BitVec.toNat_eq, hlow, hlow,
    lowNanos, lowNanos, Duration.mk.injEq]

/-- Two records are written alike if and only if the file keeps the same of them. -/
theorem recordJson_eq_iff (hnanos : WritesNanos nanos) (x y : WasmRunnerIpc) :
    recordJson nanos x = recordJson nanos y ↔ stored x = stored y := by
  have huint : ∀ w : ℕ, Function.Injective (option (uint : BitVec w → Json)) := by
    intro w
    exact option_injective uint_injective fun n hn => by cases hn
  have hirq : Function.Injective (option irqJson) := by
    apply option_injective irqJson_injective
    intro irq hnull
    cases irq <;> cases hnull
  simp only [recordJson, object, recordFields, Fields.ofList, Json.obj.injEq, Fields.cons.injEq,
    true_and, Json.num.injEq, and_true, nanos_eq_iff hnanos, (huint 32).eq_iff, (huint 64).eq_iff,
    hirq.eq_iff, Int.natCast_inj, stored, WasmRunnerIpc.mk.injEq]

theorem map_recordJson_eq_iff (hnanos : WritesNanos nanos) (xs ys : List WasmRunnerIpc) :
    xs.map (recordJson nanos) = ys.map (recordJson nanos) ↔ xs.map stored = ys.map stored := by
  rw [← List.forall₂_eq_eq_eq, ← List.forall₂_eq_eq_eq, List.forall₂_map_left_iff,
    List.forall₂_map_left_iff, List.forall₂_map_right_iff, List.forall₂_map_right_iff]
  simp only [recordJson_eq_iff hnanos]

theorem render_feed (hnanos : WritesNanos nanos) (x : WasmRunnerIpc) :
    '\n' ∉ (recordJson nanos x).render :=
  printable_ne_feed (render_printable _ (recordJson_plain hnanos x))

theorem loads_line {rawDecode : RawDecode} {x : WasmRunnerIpc}
    (hraw : ReadsObject rawDecode (recordJson nanos x)) :
    loads rawDecode (line nanos x) = some (recordJson nanos x) := by
  have hstart : (line nanos x).dropWhile jsonSpace = line nanos x := rfl
  have hread : rawDecode (line nanos x) =
      some (recordJson nanos x, (recordJson nanos x).render.length) := hraw ['\n']
  have hrest : (line nanos x).drop (recordJson nanos x).render.length = ['\n'] :=
    List.drop_left
  rw [loads, hstart, hread]
  simp only [hrest]
  rfl

theorem mapM_loads {rawDecode : RawDecode} {xs : List WasmRunnerIpc}
    (hraw : ∀ x ∈ xs, ReadsObject rawDecode (recordJson nanos x)) :
    (xs.map (line nanos)).mapM (loads rawDecode) = some (xs.map (recordJson nanos)) := by
  induction xs with
  | nil => rfl
  | cons x xs ih =>
    obtain ⟨hx, hxs⟩ := List.forall_mem_cons.mp hraw
    rw [List.map_cons, List.mapM_cons, loads_line hx, ih hxs]
    rfl

/-- The lines of records are read back as the records. -/
theorem loadLines_lines {rawDecode : RawDecode} (hnanos : WritesNanos nanos)
    {xs : List WasmRunnerIpc} (hraw : ∀ x ∈ xs, ReadsObject rawDecode (recordJson nanos x)) :
    loadLines rawDecode (xs.flatMap (line nanos)) = some (xs.map (recordJson nanos)) := by
  have hlines : readlines (xs.flatMap (line nanos)) = xs.map (line nanos) := by
    have hfeed : ∀ text ∈ xs.map fun x => (recordJson nanos x).render, '\n' ∉ text := by
      intro text htext
      obtain ⟨x, -, rfl⟩ := List.mem_map.mp htext
      exact render_feed hnanos x
    have hread := readlines_lines hfeed
    rw [List.map_map] at hread
    rwa [List.flatMap_def]
  rw [loadLines, hlines]
  exact mapM_loads hraw

/-- A line that is written is appended to what was written before. -/
theorem writeLine_spec {w : BufWriter Char} (hw : w.Bounded) (x : WasmRunnerIpc)
    (dev : Device × Device) :
    (writeLine nanos w x dev).2.Bounded ∧ (writeLine nanos w x dev).2.capacity = w.capacity ∧
      ((writeLine nanos w x dev).1 = true →
        (writeLine nanos w x dev).2.contents = w.contents ++ line nanos x) := by
  obtain ⟨hbounded, hcapacity, part, -, hcontents, hwhole⟩ := BufWriter.writeFmt_spec hw
    [((recordJson nanos x).render, dev.1), (['\n'], dev.2)]
  refine ⟨hbounded, hcapacity, ?_⟩
  intro hok
  rw [writeLine, hcontents, hwhole hok]
  simp [line]

theorem writeLine_ok (w : BufWriter Char) (x : WasmRunnerIpc) :
    (writeLine nanos w x (⟨none, none⟩, ⟨none, none⟩)).1 = true :=
  w.writeFmt_ok (by simp)

end Text

section Runs

variable {nanos : Duration → Json} {cfg : Config} {s t : Main} {es : List MainEvent}

/-- What an event is to the runner. -/
def MainEvent.labels : MainEvent → List Label
  | .runner l => [l]
  | .written => [.env .receive]
  | .writeErr => [.env .receive, .env .close]
  | .finished | .flushErr => []

/-- Nothing fails in this event. -/
def MainEvent.Sound (e : MainEvent) : Prop := e ≠ .flushErr ∧ ∀ l ∈ e.labels, Faultless l

instance (e : MainEvent) : Decidable e.Sound :=
  inferInstanceAs (Decidable (e ≠ .flushErr ∧ ∀ l ∈ e.labels, l ∉ faults))

theorem runner_run (h : Run (Step nanos cfg) s es t) :
    Run (Forwarding.Step cfg) s.runner (es.flatMap MainEvent.labels) t.runner := by
  induction h with
  | nil => exact .nil _
  | cons hstep _ ih =>
    cases hstep with
    | runner l t hreceive hclose h => exact .cons h ih
    | written x rest t dev hout hchan hwrite h => exact .cons (.env _ _ _ h) ih
    | writeErr x rest t u dev room hout hchan hwrite h hclose =>
      exact .cons (.env _ _ _ h) (.cons (.env _ _ _ hclose) ih)
    | finished room hout hchan hgone hflush | flushErr room hout hchan hgone hflush => exact ih

theorem fwdStep_received {T : Type*} [Ipc T] {capacity : ℕ} {token : Bool} {st st' : Stream T}
    {f f' : FwdPc T} {l : FwdLabel} {turn : Turn}
    (h : FwdStep capacity token st f l st' f' turn) : st'.received = st.received := by
  cases h <;> rfl

/-- Only the receiver takes messages out of the channel. -/
theorem received_eq {T : Type*} [Ipc T] {s t : State T} {l : Label}
    (h : Forwarding.Step cfg s l t) (hl : l ≠ .env .receive) :
    t.stream.received = s.stream.received := by
  cases h with
  | fwd l st f turn hturn h => exact fwdStep_received h
  | main l c f hturn h => rfl
  | env l t h =>
    cases h with
    | receive x rest h hturn => exact absurd rfl hl
    | _ => rfl

/-- A task that has ended does nothing more. -/
theorem fwdStep_running {T : Type*} [Ipc T] {capacity : ℕ} {token : Bool} {st st' : Stream T}
    {f f' : FwdPc T} {l : FwdLabel} {turn : Turn}
    (h : FwdStep capacity token st f l st' f' turn) : ¬ f.Terminated := by
  cases h <;> exact fun hdone => hdone.elim

theorem mainStep_running {T : Type*} {c c' : Control} {f f' : FwdPc T} {l : MainLabel}
    (h : MainStep cfg c f l c' f') (ok : Bool) : c.main ≠ .returned ok := by
  intro hreturned
  cases h <;> simp_all

/-- Without a sender nothing is added to the channel any more. -/
theorem senderGone_step {T : Type*} [Ipc T] {s t : State T} {l : Label}
    (h : Forwarding.Step cfg s l t) (hl : l ≠ .env .receive)
    (hphase : Phase cfg s.control s.fwd) (hs : SenderGone s) :
    SenderGone t ∧ t.stream.chan = s.stream.chan := by
  cases h with
  | fwd l st f turn hturn h =>
    rcases hs with hdone | ⟨-, hunspawned⟩
    · exact absurd hdone (fwdStep_running h)
    · exact absurd hunspawned h.ne_unspawned.1
  | main l c f hturn h =>
    rcases hs with hdone | ⟨⟨ok, hreturned⟩, -⟩
    · rcases h.fwd_eq with rfl | ⟨hspawn, -⟩
      · exact ⟨Or.inl hdone, rfl⟩
      · unfold Phase at hphase
        rw [hspawn] at hphase
        rw [hphase.1] at hdone
        exact hdone.elim
    · exact absurd hreturned (mainStep_running h ok)
  | env l t h =>
    have hfwd := h.fwd_eq
    obtain ⟨hmain, -⟩ := h.control_eq
    refine ⟨?_, ?_⟩
    · rcases hs with hdone | ⟨⟨ok, hreturned⟩, hunspawned⟩
      · exact Or.inl (by rwa [hfwd])
      · exact Or.inr ⟨⟨ok, hmain.trans hreturned⟩, hfwd.trans hunspawned⟩
    · cases h with
      | receive x rest h hturn => exact absurd rfl hl
      | _ => rfl

/-- What is known of the writing task in every state. -/
structure Writing (nanos : Duration → Json) (cfg : Config) (s : Main) : Prop where
  phase : Phase cfg s.runner.control s.runner.fwd
  bounded : s.writer.Bounded
  capacity : s.writer.capacity = bufSize
  contents : s.out ≠ .done false →
    s.writer.contents = s.runner.stream.received.flatMap (line nanos)
  finished : s.out = .done true → SenderGone s.runner ∧ s.runner.stream.chan = []

theorem Writing.step {e : MainEvent} (hs : Writing nanos cfg s) (h : Step nanos cfg s e t) :
    Writing nanos cfg t := by
  cases h with
  | runner l t hreceive hclose h =>
    refine ⟨h.phase hs.phase, hs.bounded, hs.capacity, ?_, ?_⟩
    · intro hout
      rw [received_eq h hreceive]
      exact hs.contents hout
    · intro hout
      obtain ⟨hgone, hchan⟩ := hs.finished hout
      obtain ⟨hgone', hsame⟩ := senderGone_step h hreceive hs.phase hgone
      exact ⟨hgone', hsame.trans hchan⟩
  | written x rest t dev hout hchan hwrite h =>
    obtain ⟨hbounded, hcapacity, happended⟩ := writeLine_spec hs.bounded x dev
    refine ⟨(Forwarding.Step.env _ _ _ h).phase hs.phase, hbounded, hcapacity.trans hs.capacity,
      ?_, ?_⟩
    · intro _
      have hcontents := hs.contents (by simp [hout])
      rw [happended hwrite, hcontents]
      cases h with
      | receive x' rest' h hturn =>
        obtain ⟨rfl, rfl⟩ := List.cons.inj (hchan.symm.trans h)
        simp
    · intro hdone
      exact absurd (hout.symm.trans hdone) (by simp)
  | writeErr x rest t u dev room hout hchan hwrite h hclose =>
    obtain ⟨hbounded, hcapacity, -⟩ := writeLine_spec hs.bounded x dev
    exact ⟨(Forwarding.Step.env _ _ _ hclose).phase
      ((Forwarding.Step.env _ _ _ h).phase hs.phase), BufWriter.flushBuf_bounded hbounded room,
      (BufWriter.flushBuf_capacity _ room).trans (hcapacity.trans hs.capacity), by simp, by simp⟩
  | finished room hout hchan hgone hflush | flushErr room hout hchan hgone hflush =>
    refine ⟨hs.phase, BufWriter.flushBuf_bounded hs.bounded room,
      (BufWriter.flushBuf_capacity _ room).trans hs.capacity, ?_, fun _ => ⟨hgone, hchan⟩⟩
    intro _
    rw [BufWriter.flushBuf_contents]
    exact hs.contents (by simp [hout])

theorem Writing.new (nanos : Duration → Json) (cfg : Config) (groups : Groups) :
    Writing nanos cfg (.new cfg groups) where
  phase := init_phase cfg groups
  bounded := BufWriter.bounded_new _
  capacity := rfl
  contents := fun _ => BufWriter.contents_new bufSize
  finished := by simp [Main.new]

theorem out_ne_failed (h : Run (Step nanos cfg) s es t) (hs : s.out ≠ .done false)
    (hes : .writeErr ∉ es) : t.out ≠ .done false := by
  refine h.invariant_of_labels (P := fun s => s.out ≠ .done false)
    (A := fun e => e ≠ .writeErr) ?_ (fun e he heq => hes (heq ▸ he)) hs
  intro s e t he hout hstep
  cases hstep with
  | writeErr => exact absurd rfl he
  | finished | flushErr => simp
  | _ => exact hout

/-- With the end of the writing task everything is in the file, if that does not fail. -/
theorem buf_eq_nil (h : Run (Step nanos cfg) s es t) (hs : s.out = .done true → s.writer.buf = [])
    (hes : .flushErr ∉ es) : t.out = .done true → t.writer.buf = [] := by
  refine h.invariant_of_labels (P := fun s => s.out = .done true → s.writer.buf = [])
    (A := fun e => e ≠ .flushErr) ?_ (fun e he heq => hes (heq ▸ he)) hs
  intro s e t he hbuf hstep
  cases hstep with
  | runner => exact hbuf
  | written x rest t dev hout => exact fun hdone => absurd (hout.symm.trans hdone) (by simp)
  | writeErr => simp
  | finished room hout hchan hgone hflush => exact fun _ => (BufWriter.flushBuf_ok hflush).1
  | flushErr => exact absurd rfl he

/-- As long as no line has failed, the file holds the lines of the records that were received
but for at most a buffer of them, which is still to be written. When nothing has failed and
both tasks have ended, it holds the records that the children have sent, and no others but
those of which the file would keep the same. -/
theorem output_exact (nanos : Duration → Json) (hnanos : WritesNanos nanos)
    (rawDecode : RawDecode) (cfg : Config) (groups : Groups) (es : List MainEvent) (s : Main)
    (hrun : Run (Step nanos cfg) (.new cfg groups) es s)
    (hraw : ∀ x ∈ s.runner.stream.sent, ReadsObject rawDecode (recordJson nanos x)) :
    (.writeErr ∉ es → ∃ held, held.length ≤ bufSize ∧
      s.writer.file ++ held = s.runner.stream.received.flatMap (line nanos)) ∧
    ((∀ e ∈ es, e.Sound) → s.runner.control.main = .returned true → s.out = .done true →
      loadLines rawDecode s.writer.file = some (s.runner.stream.sent.map (recordJson nanos)) ∧
      ∀ xs : List WasmRunnerIpc,
        loadLines rawDecode s.writer.file = some (xs.map (recordJson nanos)) ↔
          xs.map stored = s.runner.stream.sent.map stored) := by
  have hs : Writing nanos cfg s :=
    hrun.invariant (fun _ _ _ ha hstep => ha.step hstep) (.new nanos cfg groups)
  refine ⟨?_, ?_⟩
  · intro hes
    have hbounded : s.writer.buf.length ≤ s.writer.capacity := hs.bounded
    rw [hs.capacity] at hbounded
    exact ⟨s.writer.buf, hbounded, hs.contents (out_ne_failed hrun (by simp [Main.new]) hes)⟩
  · intro hes hreturned hout
    have hfaultless : ∀ l ∈ es.flatMap MainEvent.labels, Faultless l := by
      intro l hl
      obtain ⟨e, he, hl⟩ := List.mem_flatMap.mp hl
      exact (hes e he).2 l hl
    have hinv : Invariant cfg groups s.runner :=
      (runner_run hrun).invariant_of_labels (A := Faultless)
        (fun _ _ _ hl ha hstep => step_invariant hstep hl ha) hfaultless
        (init_invariant cfg groups)
    obtain ⟨hring, hflight⟩ := hinv.returned hreturned
    have hreceived : s.runner.stream.received = s.runner.stream.sent := by
      have hsent := hinv.conserved.sent
      have hhanded := hinv.conserved.handed
      rw [hring, hflight, List.append_nil, List.append_nil] at hsent
      rw [(hs.finished hout).2, List.append_nil] at hhanded
      exact hhanded.symm.trans hsent.symm
    have hbuf : s.writer.buf = [] :=
      buf_eq_nil hrun (by simp [Main.new]) (fun he => (hes _ he).1 rfl) hout
    have hfile : s.writer.file = s.runner.stream.sent.flatMap (line nanos) := by
      have hcontents := hs.contents (by simp [hout])
      rwa [BufWriter.contents, hbuf, List.append_nil, hreceived] at hcontents
    have hload : loadLines rawDecode s.writer.file =
        some (s.runner.stream.sent.map (recordJson nanos)) := by
      rw [hfile]
      exact loadLines_lines hnanos hraw
    refine ⟨hload, ?_⟩
    intro xs
    rw [hload, Option.some.injEq, eq_comm]
    exact map_recordJson_eq_iff hnanos xs _

/-- The record of the first cycle of a run. -/
def firstRecord : WasmRunnerIpc :=
  ⟨.zero, some 10000, some 0, 0, 0, 0, 0, .zero, some 0, .zero, some 0, some (.freeze 1)⟩

def nanosJson (d : Duration) : Json := .num (d.asNanos.setWidth 64).toInt

theorem nanosJson_writes : WritesNanos nanosJson := fun _ => rfl

/-- A child sends a record and exits; the record is forwarded and written, and both tasks
end. -/
def oneRecord : List MainEvent :=
  [.runner (.env .pollMain), .runner (.main .spawn), .runner (.main .fork),
    .runner (.main .select), .runner (.main .suspend), .runner (.env .childSend),
    .runner (.env .pollFwd), .runner (.fwd .recv), .runner (.fwd .handle), .runner (.fwd .send),
    .runner (.fwd .recvNone), .runner (.fwd .yieldNow), .written, .runner (.env .childExit),
    .runner (.env .pollMain), .runner (.main (.leave .exited)), .runner (.main .signal),
    .runner (.main .reap), .runner (.main .collect), .runner (.main .cancelToken),
    .runner (.main .suspend), .runner (.env .pollFwd), .runner (.fwd .recvNone),
    .runner (.fwd .break), .runner (.env .pollMain), .runner (.main .joined), .finished]

theorem run_oneRecord : ∃ s, Run (Step nanosJson (oneProcess (0, 0)))
    (.new (oneProcess (0, 0)) (.created [0])) oneRecord s ∧
      s.runner.control.main = .returned true ∧ s.out = .done true ∧
      s.runner.stream.sent = [firstRecord] := by
  have hrun : Run (Step nanosJson (oneProcess (0, 0)))
      (.new (oneProcess (0, 0)) (.created [0])) oneRecord _ :=
    .cons (.runner _ _ _ (by simp) (by simp)
      (.env _ _ _ (.pollMain _ rfl (fun ok h => by cases h)))) <|
    .cons (.runner _ _ _ (by simp) (by simp) (.main _ _ _ _ rfl (.spawn _ _ (0, 0) [] rfl))) <|
    .cons (.runner _ _ _ (by simp) (by simp) (.main _ _ _ _ rfl (.fork _ _ rfl))) <|
    .cons (.runner _ _ _ (by simp) (by simp) (.main _ _ _ _ rfl (.select _ _ rfl (by decide)))) <|
    .cons (.runner _ _ _ (by simp) (by simp) (.main _ _ _ _ rfl (.suspend _ _ (.inl rfl)))) <|
    .cons (.runner _ _ _ (by simp) (by simp)
      (.env _ _ _ (.childSend _ (0, 0) firstRecord rfl))) <|
    .cons (.runner _ _ _ (by simp) (by simp)
      (.env _ _ _ (.pollFwd _ rfl (by simp) id))) <|
    .cons (.runner _ _ _ (by simp) (by simp) (.fwd _ _ _ _ _ rfl (.recv _ _ _ rfl))) <|
    .cons (.runner _ _ _ (by simp) (by simp) (.fwd _ _ _ _ _ rfl (.handle _ _))) <|
    .cons (.runner _ _ _ (by simp) (by simp) (.fwd _ _ _ _ _ rfl (.send _ _ (by decide) rfl))) <|
    .cons (.runner _ _ _ (by simp) (by simp) (.fwd _ _ _ _ _ rfl (.recvNone _ rfl))) <|
    .cons (.runner _ _ _ (by simp) (by simp) (.fwd _ _ _ _ _ rfl (.yieldNow _ rfl))) <|
    .cons (.written _ _ _ _ (⟨none, none⟩, ⟨none, none⟩) rfl rfl (writeLine_ok _ _)
      (.receive _ _ _ rfl rfl)) <|
    .cons (.runner _ _ _ (by simp) (by simp) (.env _ _ _ (.childExit _ (0, 0)))) <|
    .cons (.runner _ _ _ (by simp) (by simp)
      (.env _ _ _ (.pollMain _ rfl (fun ok h => by cases h)))) <|
    .cons (.runner _ _ _ (by simp) (by simp)
      (.main _ _ _ _ rfl (.leave _ _ .exited [(0, 0)] rfl rfl (.refl _)))) <|
    .cons (.runner _ _ _ (by simp) (by simp) (.main _ _ _ _ rfl (.signal _ _ _ _ _ rfl))) <|
    .cons (.runner _ _ _ (by simp) (by simp)
      (.main _ _ _ _ rfl (.reap _ _ (0, 0) _ _ rfl (by decide) rfl))) <|
    .cons (.runner _ _ _ (by simp) (by simp) (.main _ _ _ _ rfl (.collect _ _ rfl rfl))) <|
    .cons (.runner _ _ _ (by simp) (by simp) (.main _ _ _ _ rfl (.cancelToken _ _ rfl))) <|
    .cons (.runner _ _ _ (by simp) (by simp)
      (.main _ _ _ _ rfl (.suspend _ _ (.inr (.inr ⟨rfl, id⟩))))) <|
    .cons (.runner _ _ _ (by simp) (by simp)
      (.env _ _ _ (.pollFwd _ rfl (by simp) id))) <|
    .cons (.runner _ _ _ (by simp) (by simp) (.fwd _ _ _ _ _ rfl (.recvNone _ rfl))) <|
    .cons (.runner _ _ _ (by simp) (by simp) (.fwd _ _ _ _ _ rfl (.break _ rfl))) <|
    .cons (.runner _ _ _ (by simp) (by simp)
      (.env _ _ _ (.pollMain _ rfl (fun ok h => by cases h)))) <|
    .cons (.runner _ _ _ (by simp) (by simp) (.main _ _ _ _ rfl (.joined _ _ rfl trivial))) <|
    .single (.finished _ none rfl rfl (.inl trivial) (BufWriter.flushBuf_none _))
  exact ⟨_, hrun, rfl, rfl, rfl⟩

theorem output_exact_oneRecord : ∃ text,
    loadLines rawDecode text = some [recordJson nanosJson firstRecord] ∧
      ∀ xs : List WasmRunnerIpc, loadLines rawDecode text = some (xs.map (recordJson nanosJson)) ↔
        xs.map stored = [stored firstRecord] := by
  obtain ⟨s, hrun, hreturned, hout, hsent⟩ := run_oneRecord
  have hexact := (output_exact nanosJson nanosJson_writes rawDecode (oneProcess (0, 0))
    (.created [0]) oneRecord s hrun
    (fun x _ => rawDecode_render (recordJson_plain nanosJson_writes x))).2
    (by decide) hreturned hout
  rw [hsent] at hexact
  exact ⟨s.writer.file, hexact⟩

end Runs

end InterferenceMitigation.OutputFile
