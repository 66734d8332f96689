import InterferenceMitigation.MachineInt

/-!
The writer that sends the records over the serial port where there is no trace port.
The driver is non-blocking: asked to write a byte while its queue is full it answers that
it would block, and has not taken the byte. The writer drops these answers and reports
the whole buffer as written, unlike the logger, which asks again on the same driver.
-/

namespace InterferenceMitigation.UartWriter

open MachineInt

/-- `nb::Result<(), Infallible>`. -/
inductive NbResult
  | ok
  | wouldBlock
  deriving DecidableEq, Repr

/-- A non-blocking serial driver with its state. -/
structure Driver (σ : Type*) where
  write : σ → U8 → NbResult × σ
  flush : σ → NbResult × σ

/-- What a driver has completed: a byte it has taken, or a flush. -/
inductive Done
  | byte (b : U8)
  | flush
  deriving DecidableEq, Repr

/-- The driver behind the lock, with what it has completed so far. -/
structure Port (σ : Type*) where
  driver : σ
  done : List Done

variable {σ : Type*} (d : Driver σ)

namespace Port

def write (p : Port σ) (b : U8) : NbResult × Port σ :=
  match d.write p.driver b with
  | (.ok, s) => (.ok, ⟨s, p.done ++ [.byte b]⟩)
  | (.wouldBlock, s) => (.wouldBlock, { p with driver := s })

def flush (p : Port σ) : NbResult × Port σ :=
  match d.flush p.driver with
  | (.ok, s) => (.ok, ⟨s, p.done ++ [.flush]⟩)
  | (.wouldBlock, s) => (.wouldBlock, { p with driver := s })

end Port

/-- `UartWriter::write`; the answer of the driver to each byte is dropped. -/
def write (buf : List U8) (p : Port σ) : Except Empty ℕ × Port σ :=
  if buf.length = 0 then
    (.ok 0, p)
  else
    (.ok buf.length, buf.foldl (fun p b => (p.write d b).2) p)

/-- `UartWriter::flush`; the answer of the driver is dropped. -/
def flush (p : Port σ) : Except Empty Unit × Port σ := (.ok (), (p.flush d).2)

/-- The driver takes every byte the first time it is asked to. -/
def Driver.Accepts : σ → List U8 → Prop
  | _, [] => True
  | s, b :: bs => (d.write s b).1 = .ok ∧ Driver.Accepts (d.write s b).2 bs

/-- The bytes a driver takes when it is asked once for each. -/
def Driver.taken : σ → List U8 → List U8
  | _, [] => []
  | s, b :: bs => (if (d.write s b).1 = .ok then [b] else []) ++ Driver.taken (d.write s b).2 bs

theorem Driver.taken_sublist (s : σ) (buf : List U8) : (d.taken s buf).Sublist buf := by
  induction buf generalizing s with
  | nil => exact .slnil
  | cons b bs ih =>
    rw [Driver.taken]
    by_cases hok : (d.write s b).1 = .ok
    · rw [if_pos hok]
      exact (ih _).cons_cons b
    · rw [if_neg hok]
      exact (ih _).cons b

/-- All bytes are taken exactly when none is refused: a refused byte is not made up for. -/
theorem Driver.taken_eq_iff (s : σ) (buf : List U8) : d.taken s buf = buf ↔ d.Accepts s buf := by
  induction buf generalizing s with
  | nil => exact ⟨fun _ => trivial, fun _ => rfl⟩
  | cons b bs ih =>
    rw [Driver.taken, Driver.Accepts]
    by_cases hok : (d.write s b).1 = .ok
    · rw [if_pos hok, List.singleton_append, List.cons_inj_right, ih]
      exact ⟨fun h => ⟨hok, h⟩, fun h => h.2⟩
    · rw [if_neg hok, List.nil_append]
      constructor
      · intro heq
        have hlength := (d.taken_sublist (d.write s b).2 bs).length_le
        rw [heq, List.length_cons] at hlength
        omega
      · intro h
        exact absurd h.1 hok

theorem Port.write_eq (p : Port σ) (b : U8) :
    (p.write d b).2 = ⟨(d.write p.driver b).2,
      p.done ++ (if (d.write p.driver b).1 = .ok then [b] else []).map .byte⟩ := by
  unfold Port.write
  rcases d.write p.driver b with ⟨answer, s⟩
  cases answer <;> simp

theorem foldl_done (buf : List U8) (p : Port σ) :
    (buf.foldl (fun p b => (p.write d b).2) p).done =
      p.done ++ (d.taken p.driver buf).map .byte := by
  induction buf generalizing p with
  | nil => simp [Driver.taken]
  | cons b bs ih =>
    rw [List.foldl_cons, ih, Port.write_eq, Driver.taken, List.map_append, List.append_assoc]

/-- Whatever the driver answers, the whole buffer is reported as written. -/
theorem write_eq (buf : List U8) (p : Port σ) :
    ∃ t, write d buf p = (.ok buf.length, t) ∧
      t.done = p.done ++ (d.taken p.driver buf).map .byte := by
  unfold write
  by_cases hempty : buf.length = 0
  · obtain rfl := List.eq_nil_of_length_eq_zero hempty
    exact ⟨p, rfl, by simp [Driver.taken]⟩
  · rw [if_neg hempty]
    exact ⟨_, rfl, foldl_done d buf p⟩

/-- The bytes reported as written are those the driver has taken during the call. -/
def Lossless (buf : List U8) (p : Port σ) : Prop :=
  ∀ n t, write d buf p = (.ok n, t) → t.done = p.done ++ (buf.take n).map .byte

/-- A flush that is reported as done is done. -/
def Flushes (p : Port σ) : Prop :=
  ∀ t, flush d p = (.ok (), t) → t.done = p.done ++ [.flush]

theorem lossless_iff_accepts (buf : List U8) (p : Port σ) :
    Lossless d buf p ↔ d.Accepts p.driver buf := by
  obtain ⟨t, hwrite, hdone⟩ := write_eq d buf p
  have hbyte : Function.Injective Done.byte := fun _ _ h => Done.byte.inj h
  have hlossless : Lossless d buf p ↔ t.done = p.done ++ buf.map .byte := by
    constructor
    · intro h
      rw [h _ _ hwrite, List.take_length]
    · intro h n t' hwrite'
      rw [hwrite, Prod.mk.injEq, Except.ok.injEq] at hwrite'
      obtain ⟨rfl, rfl⟩ := hwrite'
      rw [h, List.take_length]
  rw [hlossless, hdone, List.append_cancel_left_eq, (List.map_injective_iff.mpr hbyte).eq_iff,
    d.taken_eq_iff]

theorem flushes_iff_ok (p : Port σ) : Flushes d p ↔ (d.flush p.driver).1 = .ok := by
  unfold Flushes flush Port.flush
  rcases d.flush p.driver with ⟨answer, s⟩
  cases answer with
  | ok => simp
  | wouldBlock =>
    simp only [reduceCtorEq, iff_false, not_forall]
    exact ⟨_, rfl, by simp⟩

/-- Nothing is lost exactly when the driver refuses neither a byte of the buffer nor the
flush. -/
theorem lossless_iff (p : Port σ) (buf : List U8) :
    (Lossless d buf p ↔ d.Accepts p.driver buf) ∧
      (Flushes d p ↔ (d.flush p.driver).1 = .ok) :=
  ⟨lossless_iff_accepts d buf p, flushes_iff_ok d p⟩

/-- A driver whose queue holds one byte and is not emptied while it is written to. -/
def slowDriver : Driver Bool where
  write full _ := if full then (.wouldBlock, true) else (.ok, true)
  flush full := if full then (.wouldBlock, true) else (.ok, false)

/-- Of two bytes the second is lost. -/
theorem slowDriver_not_lossless :
    ¬ ∀ (σ : Type) (d : Driver σ) (p : Port σ) (buf : List U8), Lossless d buf p ∧ Flushes d p := by
  intro h
  have hwrite := (h Bool slowDriver ⟨false, []⟩ [123, 125]).1 2 ⟨true, [.byte 123]⟩ rfl
  exact absurd hwrite (by decide)

end InterferenceMitigation.UartWriter
