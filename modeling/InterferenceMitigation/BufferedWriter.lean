import Mathlib.Data.List.Infix
import Mathlib.Tactic.Common

/-!
A buffered writer over a file. Data for which there is room stays in the buffer; otherwise
the buffer is flushed first, and data as long as the whole buffer bypasses it. The file may
fail after a part of what it is given. Whatever is written, and whether or not that succeeds,
the file followed by the buffer is what has been written so far, so that the file lacks no
more than the buffer can hold.
-/

namespace InterferenceMitigation.BufferedWriter

variable {α : Type*}

structure BufWriter (α : Type*) where
  capacity : ℕ
  file : List α
  buf : List α
  deriving DecidableEq, Repr

/-- What the file takes of the data when it fails after `room` elements, or never does. -/
def accepted (room : Option ℕ) (data : List α) : List α :=
  room.elim data fun n => data.take n

/-- How the file answers when the buffer is flushed and when data bypasses it. -/
structure Device where
  flush : Option ℕ
  direct : Option ℕ
  deriving DecidableEq, Repr

namespace BufWriter

def new (capacity : ℕ) : BufWriter α := ⟨capacity, [], []⟩

def spareCapacity (w : BufWriter α) : ℕ := w.capacity - w.buf.length

/-- Whether the buffer could be written, and the writer without what was written of it. -/
def flushBuf (w : BufWriter α) (room : Option ℕ) : Bool × BufWriter α :=
  let part := accepted room w.buf
  (part.length = w.buf.length,
    { w with file := w.file ++ part, buf := w.buf.drop part.length })

/-- The flush before data of length `n`, which is not made if the buffer has room for it. -/
def makeRoom (w : BufWriter α) (n : ℕ) (room : Option ℕ) : Bool × BufWriter α :=
  if w.spareCapacity < n then w.flushBuf room else (true, w)

def writeAllCold (w : BufWriter α) (data : List α) (dev : Device) : Bool × BufWriter α :=
  let flushed := w.makeRoom data.length dev.flush
  if flushed.1 then
    if w.capacity ≤ data.length then
      let part := accepted dev.direct data
      (part.length = data.length, { flushed.2 with file := flushed.2.file ++ part })
    else (true, { flushed.2 with buf := flushed.2.buf ++ data })
  else (false, flushed.2)

def writeAll (w : BufWriter α) (data : List α) (dev : Device) : Bool × BufWriter α :=
  if data.length < w.spareCapacity then (true, { w with buf := w.buf ++ data })
  else w.writeAllCold data dev

/-- The pieces of a formatted text one after the other, up to the first that fails. -/
def writeFmt (w : BufWriter α) : List (List α × Device) → Bool × BufWriter α
  | [] => (true, w)
  | (data, dev) :: rest =>
    let r := w.writeAll data dev
    if r.1 then r.2.writeFmt rest else (false, r.2)

/-- What has been written: the file, and the buffer behind it. -/
def contents (w : BufWriter α) : List α := w.file ++ w.buf

/-- The buffer holds no more than it can. -/
def Bounded (w : BufWriter α) : Prop := w.buf.length ≤ w.capacity

end BufWriter

theorem accepted_isPrefix (room : Option ℕ) (data : List α) : accepted room data <+: data := by
  cases room with
  | none => exact List.prefix_rfl
  | some n => exact List.take_prefix n data

/-- Data of which all was accepted was accepted as it is. -/
theorem accepted_eq {room : Option ℕ} {data : List α}
    (h : (accepted room data).length = data.length) : accepted room data = data :=
  (accepted_isPrefix room data).eq_of_length h

namespace BufWriter

variable {w : BufWriter α} {data : List α} {dev : Device}

@[simp] theorem contents_new (capacity : ℕ) : (new capacity : BufWriter α).contents = [] := rfl

theorem bounded_new (capacity : ℕ) : (new capacity : BufWriter α).Bounded := Nat.zero_le _

@[simp] theorem flushBuf_contents (w : BufWriter α) (room : Option ℕ) :
    (w.flushBuf room).2.contents = w.contents := by
  have hsplit := List.prefix_iff_eq_append.mp (accepted_isPrefix room w.buf)
  simp only [contents, flushBuf, List.append_assoc, hsplit]

@[simp] theorem flushBuf_capacity (w : BufWriter α) (room : Option ℕ) :
    (w.flushBuf room).2.capacity = w.capacity := rfl

theorem flushBuf_bounded (h : w.Bounded) (room : Option ℕ) : (w.flushBuf room).2.Bounded := by
  have hle : (w.flushBuf room).2.buf.length ≤ w.buf.length := by
    rw [flushBuf, List.length_drop]
    exact Nat.sub_le _ _
  exact hle.trans h

/-- A flush that succeeds leaves everything in the file. -/
theorem flushBuf_ok {room : Option ℕ} (h : (w.flushBuf room).1 = true) :
    (w.flushBuf room).2.buf = [] ∧ (w.flushBuf room).2.file = w.contents := by
  have hlength : (accepted room w.buf).length = w.buf.length := of_decide_eq_true h
  refine ⟨?_, ?_⟩
  · rw [flushBuf, hlength]
    exact List.drop_length
  · rw [flushBuf, accepted_eq hlength]
    rfl

theorem flushBuf_none (w : BufWriter α) : (w.flushBuf none).1 = true := by
  simp [flushBuf, accepted]

theorem makeRoom_spec (h : w.Bounded) (n : ℕ) (room : Option ℕ) :
    (w.makeRoom n room).2.Bounded ∧ (w.makeRoom n room).2.capacity = w.capacity ∧
      (w.makeRoom n room).2.contents = w.contents ∧
      ((w.makeRoom n room).1 = true → (w.makeRoom n room).2.buf = [] ∨
        (w.makeRoom n room).2.buf.length + n ≤ w.capacity) := by
  unfold makeRoom
  split
  · exact ⟨flushBuf_bounded h room, flushBuf_capacity w room, flushBuf_contents w room,
      fun hok => Or.inl (flushBuf_ok hok).1⟩
  · rename_i hroom
    refine ⟨h, rfl, rfl, fun _ => Or.inr ?_⟩
    change w.buf.length + n ≤ w.capacity
    unfold Bounded at h
    unfold spareCapacity at hroom
    omega

/-- Of data that is written, the whole or the part up to a failure is appended. -/
theorem writeAll_spec (h : w.Bounded) (data : List α) (dev : Device) :
    (w.writeAll data dev).2.Bounded ∧ (w.writeAll data dev).2.capacity = w.capacity ∧
      ∃ part, part <+: data ∧ (w.writeAll data dev).2.contents = w.contents ++ part ∧
        ((w.writeAll data dev).1 = true → part = data) := by
  obtain ⟨hbounded, hcapacity, hcontents, hroom⟩ := makeRoom_spec h data.length dev.flush
  unfold writeAll writeAllCold
  by_cases hfits : data.length < w.spareCapacity
  · rw [if_pos hfits]
    refine ⟨?_, rfl, data, List.prefix_rfl, (List.append_assoc ..).symm, fun _ => rfl⟩
    unfold spareCapacity at hfits
    simp only [Bounded, List.length_append]
    omega
  · rw [if_neg hfits]
    generalize w.makeRoom data.length dev.flush = flushed at *
    obtain ⟨ok, v⟩ := flushed
    dsimp only at hbounded hcapacity hcontents hroom
    cases ok with
    | false =>
      exact ⟨hbounded, hcapacity, [], List.nil_prefix, by simpa using hcontents, by simp⟩
    | true =>
      have hbuf := hroom rfl
      by_cases hlong : w.capacity ≤ data.length
      · -- what bypasses the buffer finds it empty
        have hnil : v.buf = [] := by
          rcases hbuf with hnil | hsum
          · exact hnil
          · exact List.length_eq_zero_iff.mp (by omega)
        simp only [if_true, if_pos hlong]
        refine ⟨hbounded, hcapacity, accepted dev.direct data, accepted_isPrefix _ _, ?_, ?_⟩
        · rw [← hcontents, contents, contents, hnil, List.append_nil, List.append_nil]
        · exact fun hok => accepted_eq (of_decide_eq_true hok)
      · simp only [if_true, if_neg hlong]
        refine ⟨?_, hcapacity, data, List.prefix_rfl, ?_, fun _ => rfl⟩
        · simp only [Bounded, List.length_append]
          rcases hbuf with hnil | hsum
          · rw [hnil, List.length_nil]
            omega
          · omega
        · rw [← hcontents]
          exact (List.append_assoc ..).symm

/-- Where the file never fails, neither does the writer. -/
theorem writeAll_ok (w : BufWriter α) (data : List α) :
    (w.writeAll data ⟨none, none⟩).1 = true := by
  have hroom : (w.makeRoom data.length none).1 = true := by
    unfold makeRoom
    split
    · exact flushBuf_none w
    · rfl
  unfold writeAll writeAllCold
  split
  · rfl
  · simp only [hroom, if_true]
    split
    · simp [accepted]
    · rfl

/-- Of a formatted text the whole or a part from its start is appended. -/
theorem writeFmt_spec (h : w.Bounded) (pieces : List (List α × Device)) :
    (w.writeFmt pieces).2.Bounded ∧ (w.writeFmt pieces).2.capacity = w.capacity ∧
      ∃ part, part <+: (pieces.map Prod.fst).flatten ∧
        (w.writeFmt pieces).2.contents = w.contents ++ part ∧
        ((w.writeFmt pieces).1 = true → part = (pieces.map Prod.fst).flatten) := by
  induction pieces generalizing w with
  | nil => exact ⟨h, rfl, [], List.prefix_rfl, (List.append_nil _).symm, fun _ => rfl⟩
  | cons piece rest ih =>
    obtain ⟨data, dev⟩ := piece
    obtain ⟨hbounded, hcapacity, part, hpart, hcontents, hwhole⟩ := writeAll_spec h data dev
    rw [writeFmt]
    cases hok : (w.writeAll data dev).1 with
    | false =>
      refine ⟨hbounded, hcapacity, part, ?_, hcontents, by simp⟩
      exact hpart.trans (List.prefix_append _ _)
    | true =>
      obtain rfl := hwhole hok
      obtain ⟨hbounded', hcapacity', more, hmore, hcontents', hall⟩ := ih hbounded
      refine ⟨hbounded', hcapacity'.trans hcapacity, part ++ more, ?_, ?_, ?_⟩
      · rw [List.map_cons, List.flatten_cons]
        exact (List.prefix_append_right_inj part).mpr hmore
      · rw [if_pos rfl, hcontents', hcontents, List.append_assoc]
      · intro hrest
        rw [List.map_cons, List.flatten_cons, hall hrest]

theorem writeFmt_ok (w : BufWriter α) {pieces : List (List α × Device)}
    (h : ∀ piece ∈ pieces, piece.2 = ⟨none, none⟩) : (w.writeFmt pieces).1 = true := by
  induction pieces generalizing w with
  | nil => rfl
  | cons piece rest ih =>
    obtain ⟨data, dev⟩ := piece
    obtain ⟨rfl, hrest⟩ := List.forall_mem_cons.mp h
    rw [writeFmt]
    simp only [writeAll_ok, if_true]
    exact ih _ hrest

end BufWriter

end InterferenceMitigation.BufferedWriter
