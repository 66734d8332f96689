import InterferenceMitigation.CompactJson
import InterferenceMitigation.DeadlineGuard
import Mathlib.Algebra.Order.BigOperators.Group.List

/-!
The way of a record out of the program. It is serialised into a buffer of 1024 bytes, and
the bytes are written to the trace unit as one frame: the first with a time stamp, the
last followed by a flag. The buffer is large enough for every record, and the frames of a
stream can be told apart.
-/

namespace InterferenceMitigation.Telemetry

open MachineInt CompactJson DeadlineGuard

def uint {w : ℕ} (n : BitVec w) : Json := .num n.toNat

def option {α : Type} (value : α → Json) : Option α → Json
  | none => .null
  | some x => value x

def object (members : List (String × Json)) : Json := .obj (Fields.ofList members)

def perfInfoFields (info : PerfInfo) : List (String × Json) := [
  ("cycles", option uint info.cycles),
  ("instr", option uint info.instr),
  ("l1d_access", option uint info.l1dAccess),
  ("l1d_refill", option uint info.l1dRefill),
  ("l2d_access", option uint info.l2dAccess),
  ("l2d_refill", option uint info.l2dRefill)]

def perfInfoJson (info : PerfInfo) : Json := object (perfInfoFields info)

def refuelUpdateFields (update : RefuelUpdate) : List (String × Json) := [
  ("timestamp", uint update.timestamp),
  ("fuel", option uint update.fuel),
  ("run_idx", uint update.runIdx),
  ("refuel_idx", uint update.refuelIdx),
  ("intruder_break", .bool update.intruderBreak),
  ("intruder_set_mask", uint update.intruderSetMask),
  ("dt", uint update.dt),
  ("df", option uint update.df),
  ("acc_t", uint update.accT),
  ("acc_f", option uint update.accF),
  ("perf_info", option perfInfoJson update.perfInfo)]

def refuelUpdateJson (update : RefuelUpdate) : Json := object (refuelUpdateFields update)

inductive SerError
  | bufferFull
  deriving DecidableEq, Repr

/-- A character of a text as the byte it is written as. -/
def byte (c : Char) : U8 := BitVec.ofNat 8 c.toNat

/-- `to_slice`: the buffer as it is left, and the number of bytes that were written. -/
abbrev ToSlice := RefuelUpdate → List U8 → Except SerError (List U8 × ℕ)

/-- The serialiser writes the compact text of a record to the start of a buffer in which
there is room for it. -/
def WritesCompact (toSlice : ToSlice) : Prop :=
  ∀ update buf, (refuelUpdateJson update).render.length ≤ buf.length →
    ∃ written, toSlice update buf = .ok written ∧
      written.1.take written.2 = (refuelUpdateJson update).render.map byte

/-- The least such serialiser: it fails where there is no room. -/
def toSlice (update : RefuelUpdate) (buf : List U8) : Except SerError (List U8 × ℕ) :=
  let bytes := (refuelUpdateJson update).render.map byte
  if bytes.length ≤ buf.length then .ok (bytes ++ buf.drop bytes.length, bytes.length)
  else .error .bufferFull

theorem toSlice_writes : WritesCompact toSlice := by
  intro update buf hroom
  refine ⟨_, if_pos ?_, List.take_left⟩
  rw [List.length_map]
  exact hroom

inductive StmType
  | gDts
  | gD
  | gFlag
  deriving DecidableEq, Repr

structure StmPacket where
  port : U16
  type : StmType
  data : U8
  deriving DecidableEq, Repr

/-- The packets that `write` sends, and its result. -/
def StmWriter.write (port : U16) (buf : List U8) : List StmPacket × ℕ :=
  match buf with
  | [] => ([], 0)
  | b :: bs =>
    (⟨port, .gDts, b⟩ :: bs.map (fun b => ⟨port, .gD, b⟩) ++ [⟨port, .gFlag, 0⟩], buf.length)

/-- The buffer that the main loop serialises into. -/
def buffer : List U8 := List.replicate 1024 0

/-- What the main loop does with a record. -/
def send (toSlice : ToSlice) (port : U16) (update : RefuelUpdate) :
    Except Panic (List StmPacket) :=
  (toSlice update buffer).mapError (fun _ => .unwrap) >>= fun written =>
    return (StmWriter.write port (written.1.take written.2)).1

def sendAll (toSlice : ToSlice) (port : U16) :
    List RefuelUpdate → Except Panic (List StmPacket)
  | [] => .ok []
  | update :: rest => do
    let packets ← send toSlice port update
    let more ← sendAll toSlice port rest
    return packets ++ more

/-- The frames of a stream of packets; the first argument holds the bytes of a frame that
is open. -/
def receive : Option (List U8) → List StmPacket → Option (List (List U8))
  | none, [] => some []
  | some _, [] => none
  | none, packet :: rest =>
    match packet.type with
    | .gDts => receive (some [packet.data]) rest
    | _ => none
  | some bytes, packet :: rest =>
    match packet.type with
    | .gD => receive (some (bytes ++ [packet.data])) rest
    | .gFlag => (receive none rest).map (bytes :: ·)
    | .gDts => none

section Size

/-- The length of a member with its comma. -/
def memberLength (m : String × Json) : ℕ := m.1.toList.length + 4 + m.2.render.length

theorem renderRest_length (members : List (String × Json)) :
    (Fields.ofList members).renderRest.length = (members.map memberLength).sum + 1 := by
  induction members with
  | nil => rfl
  | cons m members ih =>
    rw [Fields.ofList, Fields.renderRest, List.map_cons, List.sum_cons, Nat.add_assoc, ← ih,
      memberLength]
    simp only [renderKey, List.length_append, List.length_cons, List.length_nil]

theorem object_length_le (members : List (String × Json)) :
    (object members).render.length ≤ (members.map memberLength).sum + 2 := by
  have hrest := renderRest_length members
  have hfirst : (Fields.ofList members).renderFirst.length ≤
      (Fields.ofList members).renderRest.length := by
    cases members with
    | nil => exact Nat.le_refl _
    | cons m members => exact Nat.le_succ _
  rw [object, Json.render, List.length_cons]
  omega

/-- A value that is written with at most twenty characters. -/
def Short (v : Json) : Prop := v.Plain ∧ v.render.length ≤ 20

theorem uint_short {w : ℕ} (hw : w ≤ 64) (n : BitVec w) : Short (uint n) := by
  have hlt : n.toNat < 10 ^ 20 := by
    have hpow : 2 ^ w ≤ 2 ^ 64 := Nat.pow_le_pow_right (by decide) hw
    have hn := n.isLt
    omega
  exact ⟨trivial, (Nat.length_toDigits_le_iff (by decide) (by decide)).mpr hlt⟩

theorem option_short {w : ℕ} (hw : w ≤ 64) (n : Option (BitVec w)) : Short (option uint n) := by
  cases n with
  | none =>
    have hnull : Json.null.render.length ≤ 20 := by decide
    exact ⟨trivial, hnull⟩
  | some n => exact uint_short hw n

theorem bool_short (b : Bool) : Short (.bool b) := by
  cases b <;> exact ⟨trivial, by decide⟩

theorem sum_memberLength_le (members : List (String × Json))
    (hkeys : ∀ key ∈ members.map Prod.fst, key.toList.length ≤ 17)
    (hvalues : ∀ value ∈ members.map Prod.snd, Short value) :
    (members.map memberLength).sum ≤ members.length * 41 := by
  have hbound : ∀ n ∈ members.map memberLength, n ≤ 41 := by
    intro n hn
    obtain ⟨m, hm, rfl⟩ := List.mem_map.mp hn
    have hkey := hkeys m.1 (List.mem_map_of_mem hm)
    have hvalue := (hvalues m.2 (List.mem_map_of_mem hm)).2
    rw [memberLength]
    omega
  have hsum := List.sum_le_card_nsmul _ 41 hbound
  rwa [List.length_map, smul_eq_mul] at hsum

theorem ofList_plain {members : List (String × Json)}
    (hkeys : ∀ key ∈ members.map Prod.fst, key.toList.all plainChar = true)
    (hvalues : ∀ value ∈ members.map Prod.snd, value.Plain) :
    (Fields.ofList members).Plain := by
  induction members with
  | nil => exact trivial
  | cons m members ih =>
    rw [List.map_cons, List.forall_mem_cons] at hkeys hvalues
    exact ⟨hkeys.1, hvalues.1, ih hkeys.2 hvalues.2⟩

end Size

section Records

variable (info : PerfInfo) (update : RefuelUpdate)

theorem perfInfo_short : ∀ value ∈ (perfInfoFields info).map Prod.snd, Short value := by
  simp only [perfInfoFields, List.map_cons, List.map_nil, List.forall_mem_cons]
  exact ⟨option_short (by decide) _, option_short (by decide) _, option_short (by decide) _,
    option_short (by decide) _, option_short (by decide) _, option_short (by decide) _,
    List.forall_mem_nil _⟩

theorem perfInfoJson_bounds :
    (perfInfoJson info).Plain ∧ (perfInfoJson info).render.length ≤ 248 := by
  have hkeys : (perfInfoFields info).map Prod.fst =
      ["cycles", "instr", "l1d_access", "l1d_refill", "l2d_access", "l2d_refill"] := rfl
  have hnames : (Fields.ofList (perfInfoFields info)).names =
      ["cycles", "instr", "l1d_access", "l1d_refill", "l2d_access", "l2d_refill"] := rfl
  have hshort := perfInfo_short info
  refine ⟨⟨?_, ofList_plain ?_ fun value hvalue => (hshort value hvalue).1⟩, ?_⟩
  · rw [hnames]
    decide
  · rw [hkeys]
    decide
  · have hsum := sum_memberLength_le (perfInfoFields info) (by rw [hkeys]; decide) hshort
    have hcount : (perfInfoFields info).length = 6 := rfl
    have hlength := object_length_le (perfInfoFields info)
    rw [perfInfoJson]
    omega

theorem optionPerfInfo_bounds (info : Option PerfInfo) :
    (option perfInfoJson info).Plain ∧ (option perfInfoJson info).render.length ≤ 248 := by
  cases info with
  | none =>
    have hnull : Json.null.render.length ≤ 248 := by decide
    exact ⟨trivial, hnull⟩
  | some info => exact perfInfoJson_bounds info

/-- The fields of a record but the last are short. -/
theorem refuelUpdate_short :
    ∀ value ∈ ((refuelUpdateFields update).take 10).map Prod.snd, Short value := by
  simp only [refuelUpdateFields, List.take_succ_cons, List.take_zero, List.map_cons, List.map_nil,
    List.forall_mem_cons]
  exact ⟨uint_short (by decide) _, option_short (by decide) _, uint_short (by decide) _,
    uint_short (by decide) _, bool_short _, uint_short (by decide) _, uint_short (by decide) _,
    option_short (by decide) _, uint_short (by decide) _, option_short (by decide) _,
    List.forall_mem_nil _⟩

theorem refuelUpdateFields_split : refuelUpdateFields update =
    (refuelUpdateFields update).take 10 ++
      [("perf_info", option perfInfoJson update.perfInfo)] := rfl

theorem refuelUpdateJson_plain : (refuelUpdateJson update).Plain := by
  have hnames : (Fields.ofList (refuelUpdateFields update)).names = ["timestamp", "fuel",
      "run_idx", "refuel_idx", "intruder_break", "intruder_set_mask", "dt", "df", "acc_t",
      "acc_f", "perf_info"] := rfl
  have hkeys : (refuelUpdateFields update).map Prod.fst = ["timestamp", "fuel", "run_idx",
      "refuel_idx", "intruder_break", "intruder_set_mask", "dt", "df", "acc_t", "acc_f",
      "perf_info"] := rfl
  refine ⟨by rw [hnames]; decide, ofList_plain (by rw [hkeys]; decide) ?_⟩
  intro value hvalue
  rw [refuelUpdateFields_split, List.map_append] at hvalue
  rcases List.mem_append.mp hvalue with hscalar | hlast
  · exact (refuelUpdate_short update value hscalar).1
  · obtain rfl := List.mem_singleton.mp hlast
    exact (optionPerfInfo_bounds update.perfInfo).1

/-- Every record fits in the buffer. -/
theorem refuelUpdateJson_length : (refuelUpdateJson update).render.length ≤ 1024 := by
  have hkeys : ((refuelUpdateFields update).take 10).map Prod.fst = ["timestamp", "fuel",
      "run_idx", "refuel_idx", "intruder_break", "intruder_set_mask", "dt", "df", "acc_t",
      "acc_f"] := rfl
  have hscalars := sum_memberLength_le ((refuelUpdateFields update).take 10)
    (by rw [hkeys]; decide) (refuelUpdate_short update)
  have hcount : ((refuelUpdateFields update).take 10).length = 10 := rfl
  have hlast : memberLength ("perf_info", option perfInfoJson update.perfInfo) ≤ 261 := by
    have hkey : "perf_info".toList.length = 9 := by decide
    have hvalue := (optionPerfInfo_bounds update.perfInfo).2
    simp only [memberLength, hkey]
    omega
  have hlength := object_length_le (refuelUpdateFields update)
  rw [refuelUpdateFields_split, List.map_append, List.sum_append, List.map_singleton,
    List.sum_singleton, ← refuelUpdateFields_split] at hlength
  rw [refuelUpdateJson]
  omega

end Records

section Stream

variable (port : U16)

/-- The bytes of a record. -/
def bytes (update : RefuelUpdate) : List U8 := (refuelUpdateJson update).render.map byte

/-- The character that a byte is shown as. -/
def char (b : U8) : Char := Char.ofNat b.toNat

theorem char_byte {c : Char} (h : Printable c) : char (byte c) = c := by
  have hlt := h.2
  have hmod : c.toNat % 2 ^ 8 = c.toNat := Nat.mod_eq_of_lt (by omega)
  rw [char, byte, BitVec.toNat_ofNat, hmod, Char.ofNat_toNat]

theorem bytes_char (update : RefuelUpdate) :
    (bytes update).map char = (refuelUpdateJson update).render := by
  rw [bytes, List.map_map]
  have hid : ∀ c ∈ (refuelUpdateJson update).render, (char ∘ byte) c = id c := fun c hc =>
    char_byte (render_printable _ (refuelUpdateJson_plain update) c hc)
  rw [List.map_congr_left hid, List.map_id]

theorem bytes_cons (update : RefuelUpdate) : ∃ b bs, bytes update = b :: bs := by
  apply List.exists_cons_of_ne_nil
  intro h
  have hpos := render_pos (refuelUpdateJson update)
  rw [List.map_eq_nil_iff.mp h] at hpos
  exact absurd hpos (Nat.lt_irrefl 0)

/-- Serialising a record never fails, and its bytes are those that are written. -/
theorem send_eq {toSlice : ToSlice} (hslice : WritesCompact toSlice) (update : RefuelUpdate) :
    send toSlice port update = .ok (StmWriter.write port (bytes update)).1 := by
  have hfits : (refuelUpdateJson update).render.length ≤ buffer.length := by
    rw [buffer, List.length_replicate]
    exact refuelUpdateJson_length update
  obtain ⟨written, hwritten, htake⟩ := hslice update buffer hfits
  rw [send, hwritten, bytes, ← htake]
  rfl

theorem sendAll_eq {toSlice : ToSlice} (hslice : WritesCompact toSlice)
    (updates : List RefuelUpdate) : sendAll toSlice port updates =
    .ok (updates.flatMap fun update => (StmWriter.write port (bytes update)).1) := by
  induction updates with
  | nil => rfl
  | cons update rest ih =>
    rw [sendAll, send_eq port hslice, ok_bind, ih, ok_bind, List.flatMap_cons]
    rfl

/-- The rest of an open frame. -/
theorem receive_open (acc bs : List U8) (rest : List StmPacket) :
    receive (some acc) (bs.map (fun b => ⟨port, .gD, b⟩) ++ ⟨port, .gFlag, 0⟩ :: rest) =
      (receive none rest).map ((acc ++ bs) :: ·) := by
  induction bs generalizing acc with
  | nil =>
    rw [List.append_nil]
    rfl
  | cons b bs ih =>
    have hstep := ih (acc ++ [b])
    rw [List.append_assoc, List.singleton_append] at hstep
    exact hstep

theorem receive_write (b : U8) (bs : List U8) (rest : List StmPacket) :
    receive none ((StmWriter.write port (b :: bs)).1 ++ rest) =
      (receive none rest).map ((b :: bs) :: ·) := by
  have hframe : (StmWriter.write port (b :: bs)).1 ++ rest = ⟨port, .gDts, b⟩ ::
      (bs.map (fun b => ⟨port, .gD, b⟩) ++ ⟨port, .gFlag, 0⟩ :: rest) := by
    simp only [StmWriter.write, List.cons_append, List.append_assoc, List.nil_append]
  rw [hframe]
  exact receive_open port [b] bs rest

/-- The messages of a stream are recovered from its frames. -/
theorem receive_stream (updates : List RefuelUpdate) :
    receive none (updates.flatMap fun update => (StmWriter.write port (bytes update)).1) =
      some (updates.map bytes) := by
  induction updates with
  | nil => rfl
  | cons update rest ih =>
    obtain ⟨b, bs, hbytes⟩ := bytes_cons update
    rw [List.flatMap_cons, hbytes, receive_write, ih, List.map_cons, hbytes, Option.map_some]

end Stream

end InterferenceMitigation.Telemetry
