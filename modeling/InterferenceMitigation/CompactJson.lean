import Mathlib.Data.Int.Notation
import Mathlib.Data.List.Nodup
import Mathlib.Tactic.Common

/-!
JSON values without arrays, strings or fractions, their compact text, and a decoder for
it. The text has no white space. Where it is followed by more, the decoder stops at its
end, so that texts of objects can be written one after the other without a separator.
-/

namespace InterferenceMitigation.CompactJson

mutual

inductive Json
  | null
  | bool (b : Bool)
  | num (n : ℤ)
  | obj (fields : Fields)
  deriving DecidableEq, Repr

/-- The members of an object in order. -/
inductive Fields
  | nil
  | cons (key : String) (value : Json) (rest : Fields)
  deriving DecidableEq, Repr

end

def Fields.ofList : List (String × Json) → Fields
  | [] => .nil
  | (key, value) :: rest => .cons key value (ofList rest)

def Fields.names : Fields → List String
  | .nil => []
  | .cons key _ rest => key :: rest.names

/-- Printable ASCII without the blank. -/
def Printable (c : Char) : Prop := 33 ≤ c.toNat ∧ c.toNat ≤ 126

instance (c : Char) : Decidable (Printable c) := inferInstanceAs (Decidable (_ ∧ _))

/-- A character that stands for itself in a key. -/
def plainChar (c : Char) : Bool := decide (Printable c) && c != '"' && c != '\\'

mutual

/-- Every key is plain, and no object has two members of one name. -/
def Json.Plain : Json → Prop
  | .null => True
  | .bool _ => True
  | .num _ => True
  | .obj fields => fields.names.Nodup ∧ fields.Plain

def Fields.Plain : Fields → Prop
  | .nil => True
  | .cons key value rest => key.toList.all plainChar = true ∧ value.Plain ∧ rest.Plain

end

def renderNum : ℤ → List Char
  | .ofNat n => Nat.toDigits 10 n
  | .negSucc n => '-' :: Nat.toDigits 10 (n + 1)

/-- A key with its colon. -/
def renderKey (key : String) : List Char := '"' :: key.toList ++ ['"', ':']

mutual

def Json.render : Json → List Char
  | .null => "null".toList
  | .bool true => "true".toList
  | .bool false => "false".toList
  | .num n => renderNum n
  | .obj fields => '{' :: fields.renderFirst

/-- The members from the first one on. -/
def Fields.renderFirst : Fields → List Char
  | .nil => ['}']
  | .cons key value rest => renderKey key ++ value.render ++ rest.renderRest

/-- The members from a later one on. -/
def Fields.renderRest : Fields → List Char
  | .nil => ['}']
  | .cons key value rest => ',' :: renderKey key ++ value.render ++ rest.renderRest

end

section Decode

def literal (word : List Char) (value : Json) (text : List Char) : Option (Json × List Char) :=
  if word <+: text then some (value, text.drop word.length) else none

def decodeDigits (text : List Char) : Option (ℕ × List Char) :=
  let digits := text.takeWhile Char.isDigit
  if digits = [] then none
  else some (Nat.ofDigitChars 10 digits 0, text.dropWhile Char.isDigit)

def decodeNum : List Char → Option (Json × List Char)
  | '-' :: text => (decodeDigits text).map fun p => (.num (-p.1), p.2)
  | text => (decodeDigits text).map fun p => (.num p.1, p.2)

def decodeScalar (text : List Char) : Option (Json × List Char) :=
  match text with
  | 'n' :: _ => literal "null".toList .null text
  | 't' :: _ => literal "true".toList (.bool true) text
  | 'f' :: _ => literal "false".toList (.bool false) text
  | _ => decodeNum text

/-- A key with its quotes and colon. -/
def decodeKey : List Char → Option (String × List Char)
  | '"' :: text =>
    match text.dropWhile plainChar with
    | '"' :: ':' :: rest => some (String.ofList (text.takeWhile plainChar), rest)
    | _ => none
  | _ => none

mutual

def decodeValue : ℕ → List Char → Option (Json × List Char)
  | 0, _ => none
  | _ + 1, '{' :: '}' :: rest => some (.obj .nil, rest)
  | fuel + 1, '{' :: text => (decodeMember fuel text).map fun p => (.obj p.1, p.2)
  | _ + 1, text => decodeScalar text

/-- A member and those that follow it. -/
def decodeMember : ℕ → List Char → Option (Fields × List Char)
  | 0, _ => none
  | fuel + 1, text => do
    let key ← decodeKey text
    let value ← decodeValue fuel key.2
    let rest ← decodeRest fuel value.2
    return (.cons key.1 value.1 rest.1, rest.2)

def decodeRest : ℕ → List Char → Option (Fields × List Char)
  | 0, _ => none
  | _ + 1, '}' :: rest => some (.nil, rest)
  | fuel + 1, ',' :: text => decodeMember fuel text
  | _ + 1, _ => none

end

/-- The value at the start of a text and the index at which its text ends. -/
def rawDecode (text : List Char) : Option (Json × ℕ) :=
  (decodeValue text.length text).map fun p => (p.1, text.length - p.2.length)

end Decode

section RoundTrip

/-- A number that stands before `text` ends there. -/
def NoDigit (text : List Char) : Prop := ∀ c ∈ text.head?, c.isDigit = false

theorem renderRest_noDigit (fields : Fields) (rest : List Char) :
    NoDigit (fields.renderRest ++ rest) := by
  intro c hc
  cases fields with
  | nil =>
    cases hc
    decide
  | cons key value more =>
    cases hc
    decide

theorem isDigit_of_mem {n : ℕ} {c : Char} (h : c ∈ Nat.toDigits 10 n) : c.isDigit = true :=
  Nat.isDigit_of_mem_toDigits (by decide) (by decide) h

theorem exists_digit (n : ℕ) :
    ∃ c digits, Nat.toDigits 10 n = c :: digits ∧ c.isDigit = true := by
  obtain ⟨c, digits, hn⟩ := List.exists_cons_of_ne_nil (Nat.toDigits_ne_nil (n := n) (b := 10))
  refine ⟨c, digits, hn, ?_⟩
  apply isDigit_of_mem (n := n)
  rw [hn]
  exact List.mem_cons_self ..

/-- A number starts with a digit or its sign. -/
theorem exists_numStart (n : ℤ) :
    ∃ c text, renderNum n = c :: text ∧ (c.isDigit = true ∨ c = '-') := by
  cases n with
  | ofNat n =>
    obtain ⟨c, digits, hn, hdigit⟩ := exists_digit n
    exact ⟨c, digits, hn, Or.inl hdigit⟩
  | negSucc n => exact ⟨'-', _, rfl, Or.inr rfl⟩

theorem numStart_ne {c : Char} (h : c.isDigit = true ∨ c = '-') {d : Char}
    (hd : d.isDigit = false) (hsign : d ≠ '-') : c ≠ d := by
  rintro rfl
  rcases h with hdigit | hc
  · rw [hdigit] at hd
    cases hd
  · exact hsign hc

theorem decodeDigits_render (n : ℕ) {rest : List Char} (hrest : NoDigit rest) :
    decodeDigits (Nat.toDigits 10 n ++ rest) = some (n, rest) := by
  have hdigits : ∀ c ∈ Nat.toDigits 10 n, c.isDigit = true := fun _ hc => isDigit_of_mem hc
  have hstop : rest.takeWhile Char.isDigit = [] ∧ rest.dropWhile Char.isDigit = rest := by
    cases rest with
    | nil => exact ⟨rfl, rfl⟩
    | cons c rest =>
      have hc := hrest c rfl
      simp [hc]
  rw [decodeDigits, List.takeWhile_append_of_pos hdigits, List.dropWhile_append_of_pos hdigits,
    hstop.1, hstop.2, List.append_nil, if_neg Nat.toDigits_ne_nil]
  rw [Nat.ofDigitChars_toDigits (by decide) (by decide)]

theorem decodeNum_render (n : ℤ) {rest : List Char} (hrest : NoDigit rest) :
    decodeNum (renderNum n ++ rest) = some (.num n, rest) := by
  cases n with
  | ofNat n =>
    have hread := decodeDigits_render n hrest
    obtain ⟨c, digits, hn, hdigit⟩ := exists_digit n
    rw [renderNum]
    rw [hn, List.cons_append] at hread ⊢
    rw [decodeNum, hread]
    · rfl
    · rintro text ⟨rfl, rfl⟩
      cases hdigit
  | negSucc n =>
    rw [renderNum, List.cons_append, decodeNum, decodeDigits_render (n + 1) hrest]
    rfl

theorem decodeScalar_num (n : ℤ) {rest : List Char} (hrest : NoDigit rest) :
    decodeScalar (renderNum n ++ rest) = some (.num n, rest) := by
  rw [← decodeNum_render n hrest]
  obtain ⟨c, text, hn, hstart⟩ := exists_numStart n
  have hne : ∀ letter : Char, letter.isDigit = false → letter ≠ '-' → ∀ tail,
      c :: (text ++ rest) = letter :: tail → False := by
    intro letter hletter hsign tail h
    exact numStart_ne hstart hletter hsign (List.cons.inj h).1
  rw [hn, List.cons_append, decodeScalar]
  · exact hne 'n' (by decide) (by decide)
  · exact hne 't' (by decide) (by decide)
  · exact hne 'f' (by decide) (by decide)

theorem decodeKey_render {key : String} (hkey : key.toList.all plainChar = true)
    (rest : List Char) : decodeKey (renderKey key ++ rest) = some (key, rest) := by
  have hplain : ∀ c ∈ key.toList, plainChar c = true := List.all_eq_true.mp hkey
  have htext : renderKey key ++ rest = '"' :: (key.toList ++ '"' :: ':' :: rest) := by
    rw [renderKey, List.cons_append, List.cons_append, List.append_assoc]
    rfl
  have hquote : plainChar '"' = false := by decide
  rw [htext, decodeKey, List.takeWhile_append_of_pos hplain, List.dropWhile_append_of_pos hplain,
    List.takeWhile_cons_of_neg (by simp [hquote]), List.dropWhile_cons_of_neg (by simp [hquote]),
    List.append_nil, String.ofList_toList]
  rfl

theorem render_pos (v : Json) : 0 < v.render.length := by
  match v with
  | .null => decide
  | .bool true => decide
  | .bool false => decide
  | .num n =>
    obtain ⟨c, text, hn, -⟩ := exists_numStart n
    rw [Json.render, hn]
    exact Nat.succ_pos _
  | .obj fields => exact Nat.succ_pos _

/-- A text that does not start with a brace is that of a scalar. -/
theorem decodeValue_scalar (fuel : ℕ) {c : Char} (hc : c ≠ '{') (text : List Char) :
    decodeValue (fuel + 1) (c :: text) = decodeScalar (c :: text) := by
  rw [decodeValue]
  · intro rest h
    cases h
    exact hc rfl
  · intro rest h
    cases h
    exact hc rfl

mutual

/-- The decoder reads a value from its text and leaves what follows. -/
theorem decodeValue_render (v : Json) (hv : v.Plain) (fuel : ℕ) (hfuel : v.render.length ≤ fuel)
    (rest : List Char) (hrest : ∀ n, v = .num n → NoDigit rest) :
    decodeValue fuel (v.render ++ rest) = some (v, rest) := by
  obtain ⟨fuel, rfl⟩ := Nat.exists_eq_add_of_le' (Nat.lt_of_lt_of_le (render_pos v) hfuel)
  match v with
  | .null => exact decodeValue_scalar fuel (by decide) _
  | .bool true => exact decodeValue_scalar fuel (by decide) _
  | .bool false => exact decodeValue_scalar fuel (by decide) _
  | .num n =>
    obtain ⟨c, digits, hn, hstart⟩ := exists_numStart n
    have hbrace : c ≠ '{' := numStart_ne hstart (by decide) (by decide)
    have hscalar := decodeScalar_num n (hrest n rfl)
    rw [hn, List.cons_append] at hscalar
    rw [Json.render, hn, List.cons_append, decodeValue_scalar fuel hbrace, hscalar]
  | .obj .nil => rfl
  | .obj (.cons key value more) =>
    have hlength : (Fields.cons key value more).renderFirst.length ≤ fuel :=
      Nat.le_of_succ_le_succ hfuel
    have hmembers := (decodeFields_render (.cons key value more) hv.2 fuel rest).1
      (fun h => by cases h) hlength
    have hopen : decodeValue (fuel + 1) ((Json.obj (.cons key value more)).render ++ rest) =
        (decodeMember fuel ((Fields.cons key value more).renderFirst ++ rest)).map
          fun p => (.obj p.1, p.2) := rfl
    rw [hopen, hmembers]
    rfl

theorem decodeFields_render (fields : Fields) (hfields : fields.Plain) (fuel : ℕ)
    (rest : List Char) :
    (fields ≠ .nil → fields.renderFirst.length ≤ fuel →
      decodeMember fuel (fields.renderFirst ++ rest) = some (fields, rest)) ∧
    (fields.renderRest.length ≤ fuel →
      decodeRest fuel (fields.renderRest ++ rest) = some (fields, rest)) := by
  match fields with
  | .nil =>
    refine ⟨fun h => absurd rfl h, fun hfuel => ?_⟩
    obtain ⟨fuel, rfl⟩ := Nat.exists_eq_add_of_le' (m := 1) hfuel
    rfl
  | .cons key value more =>
    have hmember : ∀ fuel, (Fields.cons key value more).renderFirst.length ≤ fuel →
        decodeMember fuel ((Fields.cons key value more).renderFirst ++ rest) =
          some (.cons key value more, rest) := by
      intro fuel hfuel
      have hlength : (Fields.cons key value more).renderFirst.length =
          (renderKey key).length + value.render.length + more.renderRest.length := by
        rw [Fields.renderFirst, List.length_append, List.length_append]
      have hkey : 3 ≤ (renderKey key).length := by
        simp only [renderKey, List.length_append, List.length_cons, List.length_nil]
        omega
      obtain ⟨fuel, rfl⟩ := Nat.exists_eq_add_of_le' (show 1 ≤ fuel by omega)
      have hvalue := decodeValue_render value hfields.2.1 fuel (by omega) (more.renderRest ++ rest)
        fun _ _ => renderRest_noDigit more rest
      have hmore := (decodeFields_render more hfields.2.2 fuel rest).2 (by omega)
      rw [Fields.renderFirst, List.append_assoc, List.append_assoc, decodeMember,
        decodeKey_render hfields.1]
      simp only [Option.bind_eq_bind, Option.bind_some, hvalue, hmore]
      rfl
    refine ⟨fun _ => hmember fuel, fun hfuel => ?_⟩
    have hrender : (Fields.cons key value more).renderRest =
        ',' :: (Fields.cons key value more).renderFirst := rfl
    rw [hrender, List.length_cons] at hfuel
    obtain ⟨fuel, rfl⟩ := Nat.exists_eq_add_of_le' (show 1 ≤ fuel by omega)
    exact hmember fuel (by omega)

end

/-- An object is read from the start of any text. -/
theorem rawDecode_render {fields : Fields} (h : (Json.obj fields).Plain) (rest : List Char) :
    rawDecode ((Json.obj fields).render ++ rest) =
      some (.obj fields, (Json.obj fields).render.length) := by
  have hlength : (Json.obj fields).render.length ≤
      ((Json.obj fields).render ++ rest).length := by
    rw [List.length_append]
    omega
  have hvalue := decodeValue_render _ h _ hlength rest fun n hn => by cases hn
  rw [rawDecode, hvalue, Option.map_some, List.length_append, Nat.add_sub_cancel]

end RoundTrip

section Printable

theorem printable_of_plain {c : Char} (h : plainChar c = true) : Printable c := by
  rw [plainChar, Bool.and_eq_true, Bool.and_eq_true] at h
  exact of_decide_eq_true h.1.1

/-- For a text that is given, as a computation. -/
theorem printable_of_all {text : List Char}
    (h : text.all (fun c => decide (Printable c)) = true) : ∀ c ∈ text, Printable c :=
  fun c hc => of_decide_eq_true (List.all_eq_true.mp h c hc)

theorem printable_of_digit {c : Char} (h : c.isDigit = true) : Printable c := by
  rw [Char.isDigit, Bool.and_eq_true, decide_eq_true_eq, decide_eq_true_eq] at h
  have hlow : 48 ≤ c.toNat := h.1
  have hhigh : c.toNat ≤ 57 := h.2
  constructor <;> omega

theorem renderNum_printable (n : ℤ) : ∀ c ∈ renderNum n, Printable c := by
  intro c hc
  cases n with
  | ofNat n => exact printable_of_digit (isDigit_of_mem hc)
  | negSucc n =>
    rcases List.mem_cons.mp hc with rfl | hc
    · decide
    · exact printable_of_digit (isDigit_of_mem hc)

theorem renderKey_printable {key : String} (hkey : key.toList.all plainChar = true) :
    ∀ c ∈ renderKey key, Printable c := by
  intro c hc
  rcases List.mem_append.mp hc with hquoted | hcolon
  · rcases List.mem_cons.mp hquoted with rfl | hplain
    · decide
    · exact printable_of_plain (List.all_eq_true.mp hkey c hplain)
  · exact printable_of_all (by decide) c hcolon

mutual

theorem render_printable (v : Json) (hv : v.Plain) : ∀ c ∈ v.render, Printable c := by
  match v with
  | .null => exact printable_of_all (by decide)
  | .bool true => exact printable_of_all (by decide)
  | .bool false => exact printable_of_all (by decide)
  | .num n => exact renderNum_printable n
  | .obj fields =>
    intro c hc
    rcases List.mem_cons.mp hc with rfl | hc
    · decide
    · exact (renderFields_printable fields hv.2).1 c hc

theorem renderFields_printable (fields : Fields) (hfields : fields.Plain) :
    (∀ c ∈ fields.renderFirst, Printable c) ∧ ∀ c ∈ fields.renderRest, Printable c := by
  match fields with
  | .nil => exact ⟨printable_of_all (by decide), printable_of_all (by decide)⟩
  | .cons key value more =>
    have hfirst : ∀ c ∈ (Fields.cons key value more).renderFirst, Printable c := by
      intro c hc
      rcases List.mem_append.mp hc with hmember | hmore
      · rcases List.mem_append.mp hmember with hkey | hvalue
        · exact renderKey_printable hfields.1 c hkey
        · exact render_printable value hfields.2.1 c hvalue
      · exact (renderFields_printable more hfields.2.2).2 c hmore
    refine ⟨hfirst, fun c hc => ?_⟩
    rcases List.mem_cons.mp hc with rfl | hc
    · decide
    · exact hfirst c hc

end

end Printable

end InterferenceMitigation.CompactJson
