import InterferenceMitigation.Telemetry
import Mathlib.Data.List.DropRight
import Mathlib.Data.List.TakeWhile

/-!
The analysis of a recorded trace. The trace viewer writes the messages of the trace unit
to a text file, cut into lines at arbitrary places. The analysis puts the pieces together
again and decodes one object after the other until nothing is left.
-/

namespace InterferenceMitigation.TraceReader

open CompactJson DeadlineGuard MachineInt Telemetry

/-- The characters that `strip` removes. -/
def spaceCodes : List ℕ :=
  [9, 10, 11, 12, 13, 28, 29, 30, 31, 32, 133, 160, 5760, 8192, 8193, 8194, 8195, 8196, 8197,
    8198, 8199, 8200, 8201, 8202, 8232, 8233, 8239, 8287, 12288]

def isSpace (c : Char) : Bool := decide (c.toNat ∈ spaceCodes)

def lstrip (text : List Char) : List Char := text.dropWhile isSpace

def rstrip (text : List Char) : List Char := text.rdropWhile isSpace

/-- The lines of a text, each with the line feed that ends it. -/
def readlines : List Char → List (List Char)
  | [] => []
  | c :: rest =>
    if c = '\n' then ['\n'] :: readlines rest
    else
      match readlines rest with
      | [] => [[c]]
      | line :: lines => (c :: line) :: lines

inductive ReadError
  | jsonDecodeError
  deriving DecidableEq, Repr

/-- `raw_decode`: the object at the start of a text, and the index at which it ends. -/
abbrev RawDecode := List Char → Option (Json × ℕ)

/-- The loop of the reader, with a bound on its iterations that it may run out of. -/
def readLoop (rawDecode : RawDecode) : ℕ → List Char → List Json →
    Option (Except ReadError (List Json))
  | _, [], data => some (.ok data)
  | 0, _ :: _, _ => none
  | fuel + 1, c :: text, data =>
    match rawDecode (c :: text) with
    | none => some (.error .jsonDecodeError)
    | some (obj, idx) => readLoop rawDecode fuel (lstrip ((c :: text).drop idx)) (data ++ [obj])

def readTrace32Printftrace (rawDecode : RawDecode) (fuel : ℕ) (f : List Char) :
    Option (Except ReadError (List Json)) :=
  let text := (((readlines f).drop 2).map fun l => rstrip (l.drop 13)).flatten
  readLoop rawDecode fuel text []

/-- A line of the viewer: the record number and the bar, a piece of a message, blanks. -/
structure TraceLine where
  pre : List Char
  chunk : List Char
  blanks : List Char
  pre_length : pre.length = 13
  pre_line : '\n' ∉ pre
  blanks_space : blanks.all isSpace = true
  blanks_line : '\n' ∉ blanks

/-- A file of the viewer, with its two header lines. -/
structure Trace where
  title : List Char
  columns : List Char
  lines : List TraceLine
  title_line : '\n' ∉ title
  columns_line : '\n' ∉ columns

def TraceLine.text (l : TraceLine) : List Char := l.pre ++ l.chunk ++ l.blanks

def Trace.text (t : Trace) : List Char :=
  ((t.title :: t.columns :: t.lines.map TraceLine.text).map (· ++ ['\n'])).flatten

/-- Each of the messages is cut into chunks that are not empty, and the chunks are printed
in order. Lines without a chunk may stand anywhere. -/
def Trace.Shows (t : Trace) (messages : List (List Char)) : Prop :=
  ∃ cuts : List (List (List Char)), cuts.map List.flatten = messages ∧
    (∀ chunks ∈ cuts, [] ∉ chunks) ∧
    (t.lines.map TraceLine.chunk).filter (fun chunk => chunk ≠ []) = cuts.flatten

section Strip

theorem not_space {c : Char} (h : Printable c) : isSpace c = false := by
  have hlow := h.1
  have hhigh := h.2
  rw [isSpace, decide_eq_false_iff_not, spaceCodes]
  simp only [List.mem_cons, List.not_mem_nil, or_false]
  omega

theorem lstrip_printable {text : List Char} (h : ∀ c ∈ text, Printable c) :
    lstrip text = text := by
  rw [lstrip, List.dropWhile_eq_self_iff]
  intro hl
  rw [not_space (h _ (List.getElem_mem hl))]
  decide

theorem rstrip_blanks {text blanks : List Char} (htext : ∀ c ∈ text, Printable c)
    (hblanks : ∀ c ∈ blanks, isSpace c = true) : rstrip (text ++ blanks) = text := by
  induction blanks using List.reverseRecOn with
  | nil =>
    rw [List.append_nil, rstrip, List.rdropWhile_eq_self_iff]
    intro hl
    rw [not_space (htext _ (List.getLast_mem hl))]
    decide
  | append_singleton blanks c ih =>
    have hc : isSpace c = true := hblanks c (by simp)
    rw [rstrip, ← List.append_assoc, List.rdropWhile_concat_pos _ _ _ hc]
    exact ih fun d hd => hblanks d (by simp [hd])

end Strip

section Lines

theorem readlines_line {line : List Char} (h : '\n' ∉ line) (rest : List Char) :
    readlines (line ++ '\n' :: rest) = (line ++ ['\n']) :: readlines rest := by
  induction line with
  | nil => exact if_pos rfl
  | cons c line ih =>
    obtain ⟨hc, hline⟩ := not_or.mp (mt List.mem_cons.mpr h)
    rw [List.cons_append, readlines, if_neg (Ne.symm hc), ih hline]
    rfl

theorem readlines_lines {lines : List (List Char)} (h : ∀ line ∈ lines, '\n' ∉ line) :
    readlines ((lines.map (· ++ ['\n'])).flatten) = lines.map (· ++ ['\n']) := by
  induction lines with
  | nil => rfl
  | cons line lines ih =>
    obtain ⟨hline, hlines⟩ := List.forall_mem_cons.mp h
    rw [List.map_cons, List.flatten_cons, List.append_assoc, List.singleton_append,
      readlines_line hline, ih hlines]

/-- What is left of a line is its chunk. -/
theorem rstrip_line (l : TraceLine) (h : ∀ c ∈ l.chunk, Printable c) :
    rstrip ((l.text ++ ['\n']).drop 13) = l.chunk := by
  have hdrop : (l.text ++ ['\n']).drop 13 = l.chunk ++ (l.blanks ++ ['\n']) := by
    rw [TraceLine.text, List.append_assoc, List.append_assoc, ← l.pre_length, List.drop_left]
  rw [hdrop]
  apply rstrip_blanks h
  intro c hc
  rcases List.mem_append.mp hc with hblank | hfeed
  · exact List.all_eq_true.mp l.blanks_space c hblank
  · obtain rfl := List.mem_singleton.mp hfeed
    decide

theorem printable_ne_feed {text : List Char} (h : ∀ c ∈ text, Printable c) : '\n' ∉ text :=
  fun hmem => absurd (h _ hmem) (by decide)

theorem text_line (l : TraceLine) (h : ∀ c ∈ l.chunk, Printable c) : '\n' ∉ l.text := by
  rw [TraceLine.text, List.mem_append, List.mem_append]
  exact fun hmem => hmem.elim
    (fun hmem => hmem.elim l.pre_line (printable_ne_feed h)) l.blanks_line

/-- The reader puts the chunks together again. -/
theorem readlines_chunks (t : Trace) (h : ∀ l ∈ t.lines, ∀ c ∈ l.chunk, Printable c) :
    (((readlines t.text).drop 2).map fun l => rstrip (l.drop 13)) =
      t.lines.map TraceLine.chunk := by
  have hlines : ∀ line ∈ t.title :: t.columns :: t.lines.map TraceLine.text, '\n' ∉ line := by
    simp only [List.forall_mem_cons, List.forall_mem_map]
    exact ⟨t.title_line, t.columns_line, fun l hl => text_line l (h l hl)⟩
  rw [Trace.text, readlines_lines hlines, List.map_cons, List.map_cons, List.drop_succ_cons,
    List.drop_succ_cons, List.drop_zero, List.map_map, List.map_map]
  exact List.map_congr_left fun l hl => rstrip_line l (h l hl)

theorem Trace.Shows.flatten {t : Trace} {messages : List (List Char)} (h : t.Shows messages) :
    (t.lines.map TraceLine.chunk).flatten = messages.flatten := by
  obtain ⟨cuts, rfl, -, hcuts⟩ := h
  rw [← List.flatten_flatten, ← hcuts, List.flatten_filter_ne_nil]

end Lines

section RoundTrip

/-- `raw_decode` reads this object at the start of any text and returns where it ends. -/
def ReadsObject (rawDecode : RawDecode) (obj : Json) : Prop :=
  ∀ rest, rawDecode (obj.render ++ rest) = some (obj, obj.render.length)

theorem rawDecode_reads (update : RefuelUpdate) :
    ReadsObject rawDecode (refuelUpdateJson update) :=
  rawDecode_render (refuelUpdateJson_plain update)

/-- One iteration of the loop takes the record at the start of the text. -/
theorem readLoop_step {rawDecode : RawDecode}
    (hraw : ∀ u, ReadsObject rawDecode (refuelUpdateJson u)) (update : RefuelUpdate)
    {rest : List Char} (hrest : ∀ c ∈ rest, Printable c) (fuel : ℕ)
    (data : List Json) :
    readLoop rawDecode (fuel + 1) ((refuelUpdateJson update).render ++ rest) data =
      readLoop rawDecode fuel rest (data ++ [refuelUpdateJson update]) := by
  have hread := hraw update rest
  obtain ⟨c, text, htext⟩ := List.exists_cons_of_ne_nil
    (List.ne_nil_of_length_pos (render_pos (refuelUpdateJson update)))
  have hdrop : ((refuelUpdateJson update).render ++ rest).drop
      (refuelUpdateJson update).render.length = rest := List.drop_left
  rw [htext, List.cons_append] at hread hdrop ⊢
  rw [readLoop, hread]
  simp only [hdrop, lstrip_printable hrest]

theorem renders_printable (updates : List RefuelUpdate) :
    ∀ c ∈ (updates.map fun u => (refuelUpdateJson u).render).flatten, Printable c := by
  intro c hc
  obtain ⟨text, htext, hc⟩ := List.mem_flatten.mp hc
  obtain ⟨u, -, rfl⟩ := List.mem_map.mp htext
  exact render_printable _ (refuelUpdateJson_plain u) c hc

theorem readLoop_updates {rawDecode : RawDecode}
    (hraw : ∀ u, ReadsObject rawDecode (refuelUpdateJson u)) (updates : List RefuelUpdate)
    {fuel : ℕ} (hfuel : updates.length ≤ fuel) (data : List Json) :
    readLoop rawDecode fuel (updates.map fun u => (refuelUpdateJson u).render).flatten data =
      some (.ok (data ++ updates.map refuelUpdateJson)) := by
  induction updates generalizing fuel data with
  | nil =>
    rw [List.map_nil, List.map_nil, List.append_nil, List.flatten_nil, readLoop]
  | cons update rest ih =>
    obtain ⟨fuel, rfl⟩ := Nat.exists_eq_add_of_le' (Nat.lt_of_lt_of_le (Nat.succ_pos _) hfuel)
    rw [List.map_cons, List.flatten_cons]
    refine (readLoop_step hraw update (renders_printable rest) fuel data).trans ?_
    rw [ih (Nat.le_of_succ_le_succ hfuel), List.append_assoc, List.singleton_append,
      List.map_cons]

/-- A trace that shows the bytes of records is read as these records. -/
theorem read_shows {rawDecode : RawDecode}
    (hraw : ∀ u, ReadsObject rawDecode (refuelUpdateJson u)) {updates : List RefuelUpdate}
    {t : Trace} (h : t.Shows (updates.map fun u => (bytes u).map char)) {fuel : ℕ}
    (hfuel : updates.length ≤ fuel) :
    readTrace32Printftrace rawDecode fuel t.text =
      some (.ok (updates.map refuelUpdateJson)) := by
  simp only [bytes_char] at h
  have hflatten := h.flatten
  have hprintable : ∀ l ∈ t.lines, ∀ c ∈ l.chunk, Printable c := by
    intro l hl c hc
    apply renders_printable updates c
    rw [← hflatten]
    exact List.mem_flatten.mpr ⟨l.chunk, List.mem_map_of_mem hl, hc⟩
  rw [readTrace32Printftrace, readlines_chunks t hprintable, hflatten]
  exact readLoop_updates hraw updates hfuel []

/-- Records written to the trace unit are read back from any trace that shows them. -/
theorem telemetry_round_trip (toSlice : ToSlice) (hslice : WritesCompact toSlice)
    (rawDecode : RawDecode) (hraw : ∀ u, ReadsObject rawDecode (refuelUpdateJson u)) (port : U16)
    (updates : List RefuelUpdate) :
    ∃ packets, sendAll toSlice port updates = .ok packets ∧
      packets = (updates.map fun u => (StmWriter.write port (bytes u)).1).flatten ∧
      (∀ u ∈ updates, ∃ b bs, bytes u = b :: bs ∧ StmWriter.write port (bytes u) =
        (⟨port, .gDts, b⟩ :: bs.map (fun b => ⟨port, .gD, b⟩) ++ [⟨port, .gFlag, 0⟩],
          (bytes u).length)) ∧
      receive none packets = some (updates.map bytes) ∧
      ∀ t : Trace, t.Shows (updates.map fun u => (bytes u).map char) →
        ∀ fuel, updates.length ≤ fuel →
          readTrace32Printftrace rawDecode fuel t.text =
            some (.ok (updates.map refuelUpdateJson)) := by
  refine ⟨_, sendAll_eq port hslice updates, List.flatMap_def, ?_, receive_stream port updates, ?_⟩
  · intro u _
    obtain ⟨b, bs, hbytes⟩ := bytes_cons u
    exact ⟨b, bs, hbytes, by rw [hbytes]; rfl⟩
  · intro t hshows fuel hfuel
    exact read_shows hraw hshows hfuel

/-- Two records without a bound on their fuel. -/
def nativeUpdate : RefuelUpdate :=
  ⟨94851988, none, 0, 0, false, 1022, 884287, none, 884287, none, none⟩

def nextUpdate : RefuelUpdate :=
  ⟨95736321, none, 1, 0, false, 1022, 884301, none, 884301, none, none⟩

/-- A trace of the records that is cut within the time stamp of the first. -/
def nativeTrace : Trace where
  title := "B::PrintfTrace.List_MESSAGE".toList
  columns := "_____record_|message".toList
  lines := [
    ⟨"-0000533856 |".toList, [], [' '], by decide, by decide, by decide, by decide⟩,
    ⟨"-0000533830 |".toList, (refuelUpdateJson nativeUpdate).render.take 17, [' '], by decide,
      by decide, by decide, by decide⟩,
    ⟨"-0000533416 |".toList, (refuelUpdateJson nativeUpdate).render.drop 17, [], by decide,
      by decide, by decide, by decide⟩,
    ⟨"-0000533020 |".toList, (refuelUpdateJson nextUpdate).render, [' ', ' '], by decide,
      by decide, by decide, by decide⟩]
  title_line := by decide
  columns_line := by decide

theorem nativeTrace_shows : nativeTrace.Shows
    [(refuelUpdateJson nativeUpdate).render, (refuelUpdateJson nextUpdate).render] := by
  have hfilter : ∀ a b c : List Char, a ≠ [] → b ≠ [] → c ≠ [] →
      [[], a, b, c].filter (fun chunk => chunk ≠ []) = [a, b, c] := by
    intro a b c ha hb hc
    simp [ha, hb, hc]
  have htake : (refuelUpdateJson nativeUpdate).render.take 17 ≠ [] := by decide
  have hdrop : (refuelUpdateJson nativeUpdate).render.drop 17 ≠ [] := by decide
  have hnext : (refuelUpdateJson nextUpdate).render ≠ [] := by decide
  refine ⟨[[(refuelUpdateJson nativeUpdate).render.take 17,
    (refuelUpdateJson nativeUpdate).render.drop 17], [(refuelUpdateJson nextUpdate).render]],
    ?_, ?_, ?_⟩
  · rw [List.map_cons, List.map_singleton, List.flatten_cons, List.flatten_singleton,
      List.flatten_singleton, List.take_append_drop]
  · intro chunks hchunks
    simp only [List.mem_cons, List.not_mem_nil, or_false] at hchunks
    rcases hchunks with rfl | rfl
    · simp [htake.symm, hdrop.symm]
    · simp [hnext.symm]
  · exact hfilter _ _ _ htake hdrop hnext

/-- The records are read from the trace with the decoder for compact text. -/
theorem telemetry_round_trip_native :
    readTrace32Printftrace rawDecode 2 nativeTrace.text =
      some (.ok [refuelUpdateJson nativeUpdate, refuelUpdateJson nextUpdate]) := by
  obtain ⟨packets, -, -, -, -, hread⟩ := telemetry_round_trip toSlice toSlice_writes rawDecode
    rawDecode_reads 0 [nativeUpdate, nextUpdate]
  refine hread nativeTrace ?_ 2 (Nat.le_refl 2)
  rw [List.map_cons, List.map_singleton, bytes_char, bytes_char]
  exact nativeTrace_shows

end RoundTrip

end InterferenceMitigation.TraceReader
