import Mathlib.Data.List.Basic
import Mathlib.Tactic.IntervalCases

/-! JSON texts and how they are read back. A format prints a value and reads it off the front
of any text it was printed to, so formats compose. What a reader accepts beyond the printed
form is left open here: white space and other orders of fields are refused. -/
namespace JsonText

structure Format (α : Type) where
  print : α → List Char
  read : List Char → Option (α × List Char)
  read_print : ∀ a rest, read (print a ++ rest) = some (a, rest)

variable {α β : Type}

/-- Take a fixed text off the front. -/
def skip : List Char → List Char → Option (List Char)
  | [], cs => some cs
  | _ :: _, [] => none
  | p :: ps, c :: cs => if p = c then skip ps cs else none

@[simp] theorem skip_append (p cs : List Char) : skip p (p ++ cs) = some cs := by
  induction p with
  | nil => rfl
  | cons c p ih => simp [skip, ih]

namespace Format

/-- A value between two fixed texts. -/
def between (l r : List Char) (f : Format α) : Format α where
  print a := l ++ (f.print a ++ r)
  read cs := do
    let cs ← skip l cs
    let (a, cs) ← f.read cs
    let cs ← skip r cs
    return (a, cs)
  read_print a rest := by
    rw [List.append_assoc, List.append_assoc, skip_append]
    simp only [Option.bind_eq_bind, Option.bind_some, f.read_print, skip_append]
    rfl

/-- One value, a fixed text, another value. -/
def pair (f : Format α) (sep : List Char) (g : Format β) : Format (α × β) where
  print p := f.print p.1 ++ (sep ++ g.print p.2)
  read cs := do
    let (a, cs) ← f.read cs
    let cs ← skip sep cs
    let (b, cs) ← g.read cs
    return ((a, b), cs)
  read_print p rest := by
    rw [List.append_assoc, List.append_assoc]
    simp only [Option.bind_eq_bind, Option.bind_some, f.read_print, skip_append, g.read_print]
    rfl

/-- A value kept as one of another type. -/
def via (f : Format α) (enc : β → α) (dec : α → Option β) (h : ∀ b, dec (enc b) = some b) :
    Format β where
  print b := f.print (enc b)
  read cs := do
    let (a, cs) ← f.read cs
    let b ← dec a
    return (b, cs)
  read_print b rest := by
    simp only [Option.bind_eq_bind, Option.bind_some, f.read_print, h]
    rfl

/-- The items after the first, with the closing text. -/
def printRest (f : Format α) (close : Char) : List α → List Char
  | [] => [close]
  | a :: as => ',' :: (f.print a ++ printRest f close as)

def readRest (f : Format α) (close : Char) : Nat → List Char → Option (List α × List Char)
  | 0, _ => none
  | _ + 1, [] => none
  | fuel + 1, c :: cs =>
    if c = close then some ([], cs)
    else if c = ',' then do
      let (a, cs) ← f.read cs
      let (as, cs) ← readRest f close fuel cs
      return (a :: as, cs)
    else none

theorem readRest_print (f : Format α) {close : Char} (hclose : close ≠ ',') (as : List α)
    (rest : List Char) (fuel : Nat) (h : as.length < fuel) :
    readRest f close fuel (printRest f close as ++ rest) = some (as, rest) := by
  induction as generalizing fuel with
  | nil =>
    obtain ⟨fuel, rfl⟩ := Nat.exists_eq_add_of_lt h
    simp [printRest, readRest]
  | cons a as ih =>
    cases fuel with
    | zero => simp at h
    | succ fuel =>
      have htail := ih fuel (by simpa using h)
      simp only [printRest, List.cons_append, List.append_assoc, readRest, if_neg hclose.symm,
        if_true, f.read_print, Option.bind_eq_bind, Option.bind_some, htail]
      rfl

/-- No item is as short as its part of the text. -/
theorem length_lt_printRest (f : Format α) (close : Char) (as : List α) (rest : List Char) :
    as.length < (printRest f close as ++ rest).length := by
  induction as with
  | nil => simp [printRest]
  | cons a as ih =>
    simp only [printRest, List.length_cons, List.length_append] at ih ⊢
    omega

/-- Items between brackets, separated by commas. -/
def printList (f : Format α) (opening close : Char) : List α → List Char
  | [] => [opening, close]
  | a :: as => opening :: (f.print a ++ printRest f close as)

def readList (f : Format α) (opening close : Char) (cs : List Char) :
    Option (List α × List Char) :=
  match skip [opening, close] cs with
  | some cs => some ([], cs)
  | none => do
    let cs ← skip [opening] cs
    let (a, cs) ← f.read cs
    let (as, cs) ← readRest f close cs.length cs
    return (a :: as, cs)

/-- `hopen`: no item starts with the closing bracket. -/
def list (f : Format α) (opening close : Char) (hclose : close ≠ ',')
    (hopen : ∀ a rest, (f.print a ++ rest).head? ≠ some close) : Format (List α) where
  print := printList f opening close
  read := readList f opening close
  read_print as rest := by
    cases as with
    | nil => simp [printList, readList, skip]
    | cons a as =>
      have hno : skip [opening, close] (opening :: (f.print a ++ (printRest f close as ++ rest))) =
          none := by
        have hhead := hopen a (printRest f close as ++ rest)
        cases hcs : f.print a ++ (printRest f close as ++ rest) with
        | nil => simp [skip]
        | cons c cs =>
          rw [hcs] at hhead
          have hc : close ≠ c := fun he => hhead (by simp [he])
          simp [skip, hc]
      have htail := readRest_print f hclose as rest _ (length_lt_printRest f close as rest)
      simp only [printList, List.cons_append, List.append_assoc, readList, hno, skip, if_true,
        f.read_print, Option.bind_eq_bind, Option.bind_some, htail]
      rfl

def toText (f : Format α) (a : α) : String := String.ofList (f.print a)

/-- The value of a whole text. -/
def fromText (f : Format α) (s : String) : Option α :=
  match f.read s.toList with
  | some (a, []) => some a
  | _ => none

theorem fromText_toText (f : Format α) (a : α) : f.fromText (f.toText a) = some a := by
  have h := f.read_print a []
  rw [List.append_nil] at h
  simp [fromText, toText, h]

end Format

def hexDigit (d : Nat) : Char := if d < 10 then Char.ofNat (48 + d) else Char.ofNat (87 + d)

def hexValue (c : Char) : Option Nat :=
  if '0' ≤ c ∧ c ≤ '9' then some (c.toNat - 48)
  else if 'a' ≤ c ∧ c ≤ 'f' then some (c.toNat - 87)
  else none

theorem hexValue_hexDigit {d : Nat} (h : d < 16) : hexValue (hexDigit d) = some d := by
  interval_cases d <;> decide

/-- The escapes of one letter. -/
def shortEscape (c : Char) : Option Char :=
  if c = '"' then some '"'
  else if c = '\\' then some '\\'
  else if c = '\n' then some 'n'
  else if c = '\r' then some 'r'
  else if c = '\t' then some 't'
  else if c = Char.ofNat 8 then some 'b'
  else if c = Char.ofNat 12 then some 'f'
  else none

def shortUnescape (c : Char) : Option Char :=
  if c = '"' then some '"'
  else if c = '\\' then some '\\'
  else if c = 'n' then some '\n'
  else if c = 'r' then some '\r'
  else if c = 't' then some '\t'
  else if c = 'b' then some (Char.ofNat 8)
  else if c = 'f' then some (Char.ofNat 12)
  else none

def escape (c : Char) : List Char :=
  match shortEscape c with
  | some e => ['\\', e]
  | none =>
    if c.toNat < 32 then ['\\', 'u', '0', '0', hexDigit (c.toNat / 16), hexDigit (c.toNat % 16)]
    else [c]

/-- The characters up to the closing quote. -/
def readBody : List Char → Option (List Char × List Char)
  | [] => none
  | [c] => if c = '"' then some ([], []) else none
  | c :: e :: cs =>
    if c = '"' then some ([], e :: cs)
    else if c ≠ '\\' then (readBody (e :: cs)).map fun p => (c :: p.1, p.2)
    else if e ≠ 'u' then
      (shortUnescape e).bind fun x => (readBody cs).map fun p => (x :: p.1, p.2)
    else
      match cs with
      | '0' :: '0' :: x :: y :: cs =>
        (hexValue x).bind fun a => (hexValue y).bind fun b =>
          (readBody cs).map fun p => (Char.ofNat (16 * a + b) :: p.1, p.2)
      | _ => none

theorem readBody_quote (cs : List Char) : readBody ('"' :: cs) = some ([], cs) := by
  cases cs <;> (unfold readBody; simp)

theorem readBody_plain {c : Char} (hquote : c ≠ '"') (hslash : c ≠ '\\') {cs : List Char}
    (hcs : cs ≠ []) : readBody (c :: cs) = (readBody cs).map fun p => (c :: p.1, p.2) := by
  obtain ⟨e, cs, rfl⟩ := List.exists_cons_of_ne_nil hcs
  rw [readBody.eq_def]
  simp [hquote, hslash]

theorem readBody_short {c e : Char} (he : e ≠ 'u') (h : shortUnescape e = some c)
    (cs : List Char) : readBody ('\\' :: e :: cs) = (readBody cs).map fun p => (c :: p.1, p.2) := by
  rw [readBody.eq_def]
  simp [he, h]

theorem readBody_hex {a b : Nat} (ha : a < 16) (hb : b < 16) (cs : List Char) :
    readBody ('\\' :: 'u' :: '0' :: '0' :: hexDigit a :: hexDigit b :: cs) =
      (readBody cs).map fun p => (Char.ofNat (16 * a + b) :: p.1, p.2) := by
  rw [readBody.eq_def]
  simp [hexValue_hexDigit ha, hexValue_hexDigit hb]

theorem shortUnescape_shortEscape {c e : Char} (h : shortEscape c = some e) :
    e ≠ 'u' ∧ shortUnescape e = some c := by
  unfold shortEscape at h
  split_ifs at h with h₁ h₂ h₃ h₄ h₅ h₆ h₇ <;> cases h <;> subst_vars <;> decide

/-- What one character adds to the text is read back as that character. -/
theorem readBody_escape (c : Char) (cs : List Char) (hcs : cs ≠ []) :
    readBody (escape c ++ cs) = (readBody cs).map fun p => (c :: p.1, p.2) := by
  unfold escape
  cases h : shortEscape c with
  | some e =>
    obtain ⟨he, hback⟩ := shortUnescape_shortEscape h
    exact readBody_short he hback cs
  | none =>
    by_cases hc : c.toNat < 32
    · have hval : 16 * (c.toNat / 16) + c.toNat % 16 = c.toNat := Nat.div_add_mod _ _
      simp only [hc, if_true]
      refine (readBody_hex (by omega) (by omega) cs).trans ?_
      rw [hval, Char.ofNat_toNat]
    · simp only [hc, if_false]
      refine readBody_plain ?_ ?_ hcs
      · rintro rfl
        simp [shortEscape] at h
      · rintro rfl
        simp [shortEscape] at h

theorem readBody_print (s rest : List Char) :
    readBody (s.flatMap escape ++ '"' :: rest) = some (s, rest) := by
  induction s with
  | nil => exact readBody_quote rest
  | cons c s ih =>
    rw [List.flatMap_cons, List.append_assoc, readBody_escape c _ (by simp), ih]
    rfl

/-- A string between quotes. -/
def string : Format String where
  print s := '"' :: (s.toList.flatMap escape ++ ['"'])
  read cs := (skip ['"'] cs).bind fun cs =>
    (readBody cs).map fun p => (String.ofList p.1, p.2)
  read_print s rest := by
    simp [skip, readBody_print]

theorem string_head {close : Char} (h : close ≠ '"') (s : String) (rest : List Char) :
    (string.print s ++ rest).head? ≠ some close := by
  simp [string, Ne.symm h]

/-- `[a,b]`, for items that do not start with the closing bracket. -/
def array (f : Format α) (h : ∀ a rest, (f.print a ++ rest).head? ≠ some ']') :
    Format (List α) :=
  f.list '[' ']' (by decide) h

/-- `["a","b"]`. -/
def strings : Format (List String) := array string (string_head (by decide))

/-- An object whose fields all have one format: `{"k":v,"l":w}`. -/
def object (f : Format α) : Format (List (String × α)) :=
  (string.pair [':'] f).list (Char.ofNat 123) (Char.ofNat 125) (by decide) fun p rest => by
    rw [Format.pair, List.append_assoc]
    exact string_head (by decide) p.1 _

end JsonText
