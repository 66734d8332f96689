import InterferenceMitigation.LockTable
import InterferenceMitigation.SaveRestore
import Mathlib.Data.BitVec

/-!
The interrupt-safe lock `lock_irq` on any number of cores. Thread code calls it on the
driver mutexes, nested at will, and changes DAIF only outside of it; a core whose IRQs are
not masked can be interrupted before every instruction, also between the one that saves
DAIF and the one that masks it. The handler is `Excps::irq`. The code that runs on a core
is the innermost of its active calls and exceptions; with none of them it is thread code.
-/

namespace InterferenceMitigation.InterruptLock

open Transition SaveRestore LockTable

/-- `GIC_DRIVER`, `UART_DRIVER` and `STM_DRIVER`. -/
inductive Driver
  | gic
  | uart
  | stm
  deriving DecidableEq, Repr

/-- The mask bits D, A, I and F of PSTATE, from the highest to the lowest. -/
abbrev Daif := BitVec 4

def allMasked : Daif := 0xf

def irqMasked (daif : Daif) : Bool := daif.getLsbD 1

/-- Inside `lock_irq`: at its entry, after `mrs`, spinning after `msr DAIFSet`, in the closure
with the guard, and after the guard is dropped. `daif` is the local that `mrs` filled. -/
inductive Phase
  | entry
  | read (daif : Daif)
  | masked (daif : Daif)
  | body (daif : Daif)
  | unlocked (daif : Daif)
  deriving DecidableEq, Repr

/-- `Excps::irq` at its first call of `lock_irq` and after it, at the second call, in the loop
on `INTRUDER_BREAK`, and at the exception return. -/
inductive HandlerPc
  | ack
  | acked
  | endInterrupt
  | poll
  | leave
  deriving DecidableEq, Repr

/-- A call of `lock_irq`, or an interrupt with the DAIF bits saved in SPSR. -/
inductive Record
  | call (m : Driver) (phase : Phase)
  | irq (spsr : Daif) (pc : HandlerPc)
  deriving DecidableEq, Repr

/-- The DAIF value a record restores when it returns, once it has saved one. -/
def Record.saved : Record → Option Daif
  | .call _ .entry => none
  | .call _ (.read daif) => some daif
  | .call _ (.masked daif) => some daif
  | .call _ (.body daif) => some daif
  | .call _ (.unlocked daif) => some daif
  | .irq spsr _ => some spsr

structure Core where
  daif : Daif
  stack : List Record
  deriving DecidableEq, Repr

/-- Thread code runs, or the closure of a call. -/
def UserCode : List Record → Prop
  | [] => True
  | .call _ (.body _) :: _ => True
  | _ => False

inductive Action
  | setDaif (daif : Daif)
  | store (intruderBreak : Bool)
  | call (m : Driver)
  | mrs
  | daifSet
  | spin (m : Driver)
  | lock (m : Driver)
  | unlock (m : Driver)
  | restore
  | irq
  | callAck
  | acked (intid : Bool)
  | callEnd
  | poll
  | eret
  deriving DecidableEq, Repr

/-- One instruction of a core that reads `flag` in `INTRUDER_BREAK`. Taking an interrupt
saves DAIF and masks everything; the exception return restores it. -/
inductive CoreStep (flag : Bool) : Core → Action → Core → Prop
  | setDaif (d daif : Daif) : CoreStep flag ⟨d, []⟩ (.setDaif daif) ⟨daif, []⟩
  | store (d : Daif) (st : List Record) (b : Bool) (h : UserCode st) :
      CoreStep flag ⟨d, st⟩ (.store b) ⟨d, st⟩
  | call (d : Daif) (st : List Record) (m : Driver) (h : UserCode st) :
      CoreStep flag ⟨d, st⟩ (.call m) ⟨d, .call m .entry :: st⟩
  | mrs (d : Daif) (st : List Record) (m : Driver) :
      CoreStep flag ⟨d, .call m .entry :: st⟩ .mrs ⟨d, .call m (.read d) :: st⟩
  | daifSet (d : Daif) (st : List Record) (m : Driver) (daif : Daif) :
      CoreStep flag ⟨d, .call m (.read daif) :: st⟩ .daifSet
        ⟨d ||| 0xf, .call m (.masked daif) :: st⟩
  | spin (d : Daif) (st : List Record) (m : Driver) (daif : Daif) :
      CoreStep flag ⟨d, .call m (.masked daif) :: st⟩ (.spin m) ⟨d, .call m (.masked daif) :: st⟩
  | lock (d : Daif) (st : List Record) (m : Driver) (daif : Daif) :
      CoreStep flag ⟨d, .call m (.masked daif) :: st⟩ (.lock m) ⟨d, .call m (.body daif) :: st⟩
  | unlock (d : Daif) (st : List Record) (m : Driver) (daif : Daif) :
      CoreStep flag ⟨d, .call m (.body daif) :: st⟩ (.unlock m)
        ⟨d, .call m (.unlocked daif) :: st⟩
  | restore (d : Daif) (st : List Record) (m : Driver) (daif : Daif) :
      CoreStep flag ⟨d, .call m (.unlocked daif) :: st⟩ .restore ⟨daif, st⟩
  | irq (d : Daif) (st : List Record) (h : irqMasked d = false) :
      CoreStep flag ⟨d, st⟩ .irq ⟨allMasked, .irq d .ack :: st⟩
  | callAck (d : Daif) (st : List Record) (spsr : Daif) :
      CoreStep flag ⟨d, .irq spsr .ack :: st⟩ .callAck
        ⟨d, .call .gic .entry :: .irq spsr .acked :: st⟩
  | acked (d : Daif) (st : List Record) (spsr : Daif) (intid : Bool) :
      CoreStep flag ⟨d, .irq spsr .acked :: st⟩ (.acked intid)
        ⟨d, .irq spsr (if intid then .endInterrupt else .leave) :: st⟩
  | callEnd (d : Daif) (st : List Record) (spsr : Daif) :
      CoreStep flag ⟨d, .irq spsr .endInterrupt :: st⟩ .callEnd
        ⟨d, .call .gic .entry :: .irq spsr .poll :: st⟩
  | poll (d : Daif) (st : List Record) (spsr : Daif) :
      CoreStep flag ⟨d, .irq spsr .poll :: st⟩ .poll
        ⟨d, .irq spsr (if flag then .poll else .leave) :: st⟩
  | eret (d : Daif) (st : List Record) (spsr : Daif) :
      CoreStep flag ⟨d, .irq spsr .leave :: st⟩ .eret ⟨spsr, st⟩

/-- `owner` is the core that has the guard of a mutex. -/
structure State (K : Type*) where
  intruderBreak : Bool
  owner : Driver → Option K
  core : K → Core

variable {K : Type*}

def flagAfter (flag : Bool) : Action → Bool
  | .store b => b
  | _ => flag

def ownerAfter (owner : Driver → Option K) (k : K) : Action → Driver → Option K
  | .lock m => Function.update owner m (some k)
  | .unlock m => Function.update owner m none
  | _ => owner

/-- One instruction of one core. The exchange of the spin mutex succeeds while the mutex is
free, and fails while it is not. -/
inductive Step [DecidableEq K] : State K → K × Action → State K → Prop
  | core (s : State K) (k : K) (a : Action) (c : Core)
      (h : CoreStep s.intruderBreak (s.core k) a c)
      (hfree : ∀ m, a = .lock m → s.owner m = none)
      (hbusy : ∀ m, a = .spin m → s.owner m ≠ none) :
      Step s (k, a)
        ⟨flagAfter s.intruderBreak a, ownerAfter s.owner k a, Function.update s.core k c⟩

/-- Every core is in thread code, with whatever DAIF it was started with. -/
def State.Initial (s : State K) : Prop :=
  (∀ m, s.owner m = none) ∧ ∀ k, (s.core k).stack = []

/-- The mutexes whose guard is alive in an active call, the innermost first. -/
def held : List Record → List Driver
  | [] => []
  | .call m (.body _) :: st => m :: held st
  | _ :: st => held st

/-- The mutexes of the innermost calls, down to the thread or the handler that made them. -/
def nest : List Record → List Driver
  | .call m _ :: st => m :: nest st
  | _ => []

@[simp] theorem nest_call (m : Driver) (phase : Phase) (st : List Record) :
    nest (.call m phase :: st) = m :: nest st := rfl

@[simp] theorem nest_irq (spsr : Daif) (pc : HandlerPc) (st : List Record) :
    nest (.irq spsr pc :: st) = [] := rfl

/-- What DAIF is known to be while a record is innermost. -/
def Valid (d : Daif) : Record → Prop
  | .call _ .entry => True
  | .call _ (.read daif) => daif = d
  | .call _ _ => d = allMasked
  | .irq spsr _ => d = allMasked ∧ irqMasked spsr = false

/-- The DAIF stack of a core: what each record will restore fits the code below it. -/
def Core.Coherent (c : Core) : Prop := Along Record.saved Valid c.daif c.stack

theorem or_allMasked (d : Daif) : d ||| 0xf = allMasked := by
  apply BitVec.eq_of_getLsbD_eq
  intro i hi
  have hcases : i = 0 ∨ i = 1 ∨ i = 2 ∨ i = 3 := by omega
  rcases hcases with rfl | rfl | rfl | rfl <;> simp [allMasked]

/-- Only thread code changes DAIF for good; every other instruction is a move of the
innermost record. -/
theorem CoreStep.move {flag : Bool} {c c' : Core} {a : Action} (h : CoreStep flag c a c') :
    (c.stack = [] ∧ c'.stack = []) ∨
      Move Record.saved Valid c.daif c.stack c'.daif c'.stack := by
  cases h with
  | setDaif d daif => exact Or.inl ⟨rfl, rfl⟩
  | store d st b h => exact Or.inr (.refl d st)
  | call d st m h => exact Or.inr (.enter rfl trivial)
  | mrs d st m => exact Or.inr (.goOn rfl fun _ => rfl)
  | daifSet d st m daif => exact Or.inr (.goOn rfl fun _ => or_allMasked d)
  | spin d st m daif => exact Or.inr (.refl d _)
  | lock d st m daif => exact Or.inr (.goOn rfl id)
  | unlock d st m daif => exact Or.inr (.goOn rfl id)
  | restore d st m daif => exact Or.inr (.leave _)
  | irq d st h => exact Or.inr (.enter rfl ⟨rfl, h⟩)
  | callAck d st spsr => exact Or.inr (.call rfl rfl id trivial)
  | acked d st spsr intid => exact Or.inr (.goOn rfl id)
  | callEnd d st spsr => exact Or.inr (.call rfl rfl id trivial)
  | poll d st spsr => exact Or.inr (.goOn rfl id)
  | eret d st spsr => exact Or.inr (.leave _)

/-- The guards of a core change with the exchange that takes a mutex and the drop of the
guard, and with nothing else. -/
theorem CoreStep.held {flag : Bool} {c c' : Core} {a : Action} (h : CoreStep flag c a c') :
    match a with
    | .lock m => held c'.stack = m :: held c.stack
    | .unlock m => held c.stack = m :: held c'.stack
    | _ => held c'.stack = held c.stack := by
  cases h <;> rfl

theorem CoreStep.irqMasked_of_irq {flag : Bool} {c c' : Core} (h : CoreStep flag c .irq c') :
    irqMasked c.daif = false := by
  cases h with
  | irq d st hopen => exact hopen

/-- A core that can be interrupted holds nothing. -/
theorem held_eq_nil {d : Daif} {st : List Record} (h : Along Record.saved Valid d st)
    (hd : irqMasked d = false) : held st = [] := by
  have hmasked : d ≠ allMasked := by
    rintro rfl
    exact absurd hd (by decide)
  induction st with
  | nil => rfl
  | cons r st ih =>
    obtain ⟨hr, hst⟩ := h
    cases r with
    | call m phase =>
      cases phase with
      | entry => exact ih hst
      | read daif =>
        obtain rfl : daif = d := hr
        exact ih hst
      | masked daif => exact absurd hr hmasked
      | body daif => exact absurd hr hmasked
      | unlocked daif => exact absurd hr hmasked
    | irq spsr pc => exact absurd hr.1 hmasked

/-- A record that runs with everything masked: a handler, or a call after `msr DAIFSet`. -/
def Record.Masks : Record → Prop
  | .call _ .entry => False
  | .call _ (.read _) => False
  | _ => True

/-- Once a call or an exception has masked DAIF, no code above it unmasks it. -/
theorem allMasked_of_mem {d : Daif} {st : List Record} (h : Along Record.saved Valid d st)
    {r : Record} (hmem : r ∈ st) (hr : r.Masks) : d = allMasked := by
  induction st with
  | nil => cases hmem
  | cons r₀ st ih =>
    obtain ⟨hr₀, hst⟩ := h
    cases r₀ with
    | call m phase =>
      cases phase with
      | entry =>
        rcases List.mem_cons.mp hmem with rfl | hrest
        · exact hr.elim
        · exact ih hst hrest
      | read daif =>
        obtain rfl : daif = d := hr₀
        rcases List.mem_cons.mp hmem with rfl | hrest
        · exact hr.elim
        · exact ih hst hrest
      | masked daif => exact hr₀
      | body daif => exact hr₀
      | unlocked daif => exact hr₀
    | irq spsr pc => exact hr₀.1

/-- Below an exception nothing is held, so all guards belong to the innermost nest. -/
theorem mem_nest_of_held {d : Daif} {st : List Record} (h : Along Record.saved Valid d st)
    {m : Driver} (hm : m ∈ held st) : m ∈ nest st := by
  induction st generalizing d with
  | nil => cases hm
  | cons r st ih =>
    obtain ⟨hr, hst⟩ := h
    cases r with
    | call m' phase =>
      cases phase with
      | body daif =>
        rcases List.mem_cons.mp hm with rfl | hrest
        · exact List.mem_cons_self ..
        · exact List.mem_cons_of_mem _ (ih hst hrest)
      | _ => exact List.mem_cons_of_mem _ (ih hst hm)
    | irq spsr pc =>
      have hnil : held st = [] := held_eq_nil hst hr.2
      have hmem : m ∈ held st := hm
      rw [hnil] at hmem
      cases hmem

theorem exists_body_of_held {st : List Record} {m : Driver} (hm : m ∈ held st) :
    ∃ daif, Record.call m (.body daif) ∈ st := by
  induction st with
  | nil => cases hm
  | cons r st ih =>
    cases r with
    | call m' phase =>
      cases phase with
      | body daif =>
        rcases List.mem_cons.mp hm with rfl | hrest
        · exact ⟨daif, List.mem_cons_self ..⟩
        · obtain ⟨daif', hmem⟩ := ih hrest
          exact ⟨daif', List.mem_cons_of_mem _ hmem⟩
      | _ =>
        obtain ⟨daif', hmem⟩ := ih hm
        exact ⟨daif', List.mem_cons_of_mem _ hmem⟩
    | irq spsr pc =>
      obtain ⟨daif', hmem⟩ := ih hm
      exact ⟨daif', List.mem_cons_of_mem _ hmem⟩

/-- The DAIF stack of every core fits, and the owners of the mutexes are the cores with the
guards. -/
structure Invariant (s : State K) : Prop where
  coherent : ∀ k, (s.core k).Coherent
  agrees : Agrees s.owner fun k => held (s.core k).stack

theorem initial_invariant {s : State K} (h : s.Initial) : Invariant s where
  coherent k := by simp [Core.Coherent, h.2 k]
  agrees := by
    have howner : s.owner = fun _ => none := funext h.1
    rw [howner]
    exact Agrees.free.congr fun k => by rw [h.2 k, held]

variable {s : State K} {k : K} {m : Driver}

/-- The core runs `Excps::irq`, or code called by it. -/
def InHandler (c : Core) : Prop := ∃ spsr pc, Record.irq spsr pc ∈ c.stack

/-- It is in the handler's loop on `INTRUDER_BREAK`. -/
def Parked (c : Core) : Prop := ∃ spsr rest, c.stack = .irq spsr .poll :: rest

/-- It spins on the mutex `m` in a call made by the code with the stack `rest`. -/
def Waits (c : Core) (m : Driver) (rest : List Record) : Prop :=
  ∃ daif, c.stack = .call m (.masked daif) :: rest

theorem Invariant.held_of_owner (h : Invariant s) (hown : s.owner m = some k) :
    m ∈ held (s.core k).stack :=
  (h.agrees.mem_iff k m).mpr hown

theorem Invariant.allMasked_of_owner (h : Invariant s) (hown : s.owner m = some k) :
    (s.core k).daif = allMasked := by
  obtain ⟨daif, hmem⟩ := exists_body_of_held (h.held_of_owner hown)
  exact allMasked_of_mem (h.coherent k) hmem trivial

/-- A core with an exception or the thread innermost holds nothing. -/
theorem Invariant.not_owner_of_nest (h : Invariant s) (hnest : nest (s.core k).stack = []) :
    s.owner m ≠ some k := by
  intro hown
  have hmem := mem_nest_of_held (h.coherent k) (h.held_of_owner hown)
  rw [hnest] at hmem
  cases hmem

theorem Invariant.running_of_owner (h : Invariant s) (hown : s.owner m = some k) :
    ∃ m' phase rest, (s.core k).stack = .call m' phase :: rest := by
  have hmem := mem_nest_of_held (h.coherent k) (h.held_of_owner hown)
  match hst : (s.core k).stack with
  | [] =>
    rw [hst] at hmem
    cases hmem
  | .irq spsr pc :: rest =>
    rw [hst] at hmem
    cases hmem
  | .call m' phase :: rest => exact ⟨m', phase, rest, rfl⟩

/-- A call on a mutex that its nest does not hold waits for another core at most. -/
theorem Invariant.not_owner_of_waits (h : Invariant s) {rest : List Record}
    (hwait : Waits (s.core k) m rest) (hnew : m ∉ nest rest) : s.owner m ≠ some k := by
  intro hown
  obtain ⟨daif, hst⟩ := hwait
  have hheld := h.held_of_owner hown
  have hcoherent := h.coherent k
  rw [Core.Coherent, hst] at hcoherent
  rw [hst] at hheld
  exact hnew (mem_nest_of_held hcoherent.2 hheld)

end InterferenceMitigation.InterruptLock
