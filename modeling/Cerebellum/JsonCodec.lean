import Cerebellum.Json
import Cerebellum.Text
import Cerebellum.Lib.JsonText
import Cerebellum.Lib.Span

/-! The text of a JSON value without white space, and a reader of these texts. Fields are read
back in the order they were written in. -/
namespace Cerebellum.Json
open JsonText

/-- A number as a whole one with an exponent: `-15e-1`. -/
def numberText (mantissa : Int) (exponent : Nat) : Text :=
  (if mantissa < 0 then ['-'] else []) ++
    (Nat.toDigits 10 mantissa.natAbs ++ 'e' :: '-' :: Nat.toDigits 10 exponent)

mutual
def text : Json → Text
  | .null => "null".toList
  | .bool true => "true".toList
  | .bool false => "false".toList
  | .num m e => numberText m e
  | .str s => string.print s
  | .arr [] => "[]".toList
  | .arr (x :: xs) => '[' :: (text x ++ itemsText xs)
  | .obj [] => [Char.ofNat 123, Char.ofNat 125]
  | .obj ((k, x) :: xs) => Char.ofNat 123 :: (string.print k ++ ':' :: (text x ++ fieldsText xs))
/-- The items after the first, with the closing bracket. -/
def itemsText : List Json → Text
  | [] => [']']
  | x :: xs => ',' :: (text x ++ itemsText xs)
def fieldsText : List (String × Json) → Text
  | [] => [Char.ofNat 125]
  | (k, x) :: xs => ',' :: (string.print k ++ ':' :: (text x ++ fieldsText xs))
end

def readDigits (cs : Text) : Option (Nat × Text) :=
  let digits := cs.takeWhile Char.isDigit
  if digits.isEmpty then none
  else some (Nat.ofDigitChars 10 digits 0, cs.dropWhile Char.isDigit)

def readNumber (cs : Text) : Option (Json × Text) := do
  let minus := cs.head? == some '-'
  let (m, cs) ← readDigits (if minus then cs.tail else cs)
  let cs ← skip ['e', '-'] cs
  let (e, cs) ← readDigits cs
  return (.num (if minus then -m else m) e, cs)

def readField (read : Text → Option (Json × Text)) (cs : Text) :
    Option ((String × Json) × Text) := do
  let (k, cs) ← string.read cs
  let cs ← skip [':'] cs
  let (x, cs) ← read cs
  return ((k, x), cs)

/-- The items up to the closing bracket, behind the first. -/
def readMore {α : Type} (read : Text → Option (α × Text)) (close : Char) :
    Nat → Text → Option (List α × Text)
  | 0, _ => none
  | n + 1, cs =>
    match skip [close] cs with
    | some cs => some ([], cs)
    | none => do
      let cs ← skip [','] cs
      let (x, cs) ← read cs
      let (xs, cs) ← readMore read close n cs
      return (x :: xs, cs)

/-- A value off the front of a text no longer than the fuel. -/
def readValue : Nat → Text → Option (Json × Text)
  | 0, _ => none
  | n + 1, cs =>
    match cs with
    | [] => none
    | c :: rest =>
      if c = 'n' then (skip "null".toList cs).map fun cs => (.null, cs)
      else if c = 't' then (skip "true".toList cs).map fun cs => (.bool true, cs)
      else if c = 'f' then (skip "false".toList cs).map fun cs => (.bool false, cs)
      else if c = '"' then (string.read cs).map fun p => (.str p.1, p.2)
      else if c = '[' then
        match skip [']'] rest with
        | some rest => some (.arr [], rest)
        | none => do
          let (x, rest) ← readValue n rest
          let (xs, rest) ← readMore (readValue n) ']' rest.length rest
          return (.arr (x :: xs), rest)
      else if c = Char.ofNat 123 then
        match skip [Char.ofNat 125] rest with
        | some rest => some (.obj [], rest)
        | none => do
          let (x, rest) ← readField (readValue n) rest
          let (xs, rest) ← readMore (readField (readValue n)) (Char.ofNat 125) rest.length rest
          return (.obj (x :: xs), rest)
      else readNumber cs

/-- What may stand behind a number. -/
def Ends (rest : Text) : Prop := ∀ c ∈ rest.head?, c.isDigit = false

theorem readDigits_toDigits (n : Nat) {rest : Text} (h : Ends rest) :
    readDigits (Nat.toDigits 10 n ++ rest) = some (n, rest) := by
  have hdigits : ∀ c ∈ Nat.toDigits 10 n, c.isDigit := fun c hc =>
    Nat.isDigit_of_mem_toDigits (by decide) (by decide) hc
  simp only [readDigits, Span.takeWhile_append_stop hdigits h,
    Span.dropWhile_append_stop hdigits h, Nat.ofDigitChars_ten_toDigits]
  simp

/-- A number starts with a digit or a minus. -/
theorem numberText_head (m : Int) (e : Nat) :
    ∃ c cs, numberText m e = c :: cs ∧ (c.isDigit ∨ c = '-') := by
  obtain ⟨d, ds, hd⟩ := List.exists_cons_of_ne_nil (Nat.toDigits_ne_nil (n := m.natAbs) (b := 10))
  unfold numberText
  by_cases hm : m < 0
  · exact ⟨'-', _, by rw [if_pos hm]; rfl, .inr rfl⟩
  · refine ⟨d, _, by rw [if_neg hm, hd]; rfl, .inl ?_⟩
    exact Nat.isDigit_of_mem_toDigits (b := 10) (n := m.natAbs) (by decide) (by decide) (by simp [hd])

theorem readNumber_numberText (m : Int) (e : Nat) {rest : Text} (h : Ends rest) :
    readNumber (numberText m e ++ rest) = some (.num m e, rest) := by
  have he : Ends ('e' :: '-' :: (Nat.toDigits 10 e ++ rest)) := by simp [Ends]
  unfold readNumber numberText
  by_cases hm : m < 0
  · have habs : -|m| = m := by rw [abs_of_neg hm, neg_neg]
    simp [hm, readDigits_toDigits m.natAbs he, skip, readDigits_toDigits e h, habs]
  · obtain ⟨d, ds, hd⟩ :=
      List.exists_cons_of_ne_nil (Nat.toDigits_ne_nil (n := m.natAbs) (b := 10))
    have hdigit : d.isDigit := Nat.isDigit_of_mem_toDigits (b := 10) (n := m.natAbs)
      (by decide) (by decide) (by simp [hd])
    have hminus : d ≠ '-' := by
      rintro rfl
      exact absurd hdigit (by decide)
    have habs : (m.natAbs : Int) = m := by omega
    have hread := readDigits_toDigits m.natAbs he
    rw [hd, List.cons_append] at hread
    simp [hm, hd, hminus, hread, skip, readDigits_toDigits e h, habs]

theorem ends_items {α : Type} (print : α → Text) {close : Char} (h : close.isDigit = false)
    (xs : List α) (rest : Text) : Ends (xs.flatMap (fun x => ',' :: print x) ++ close :: rest) := by
  cases xs <;> simp [Ends, h]

theorem readMore_print {α : Type} {read : Text → Option (α × Text)} (print : α → Text)
    (close : Char) (hclose : close ≠ ',') (hdigit : close.isDigit = false) (xs : List α)
    (hread : ∀ x ∈ xs, ∀ rest, Ends rest → read (print x ++ rest) = some (x, rest))
    (rest : Text) (n : Nat) (hn : xs.length < n) :
    readMore read close n (xs.flatMap (fun x => ',' :: print x) ++ close :: rest) =
      some (xs, rest) := by
  induction xs generalizing n with
  | nil =>
    obtain ⟨n, rfl⟩ : ∃ m, n = m + 1 := ⟨n - 1, by simp at hn; omega⟩
    simp [readMore, skip]
  | cons x xs ih =>
    obtain ⟨n, rfl⟩ : ∃ m, n = m + 1 := ⟨n - 1, by simp at hn; omega⟩
    have hends := ends_items print hdigit xs rest
    have hmore := ih (fun y hy => hread y (List.mem_cons_of_mem _ hy)) n (by simpa using hn)
    simp [readMore, skip, hclose, hread x (by simp) _ hends, hmore]

/-- `"k":v`. -/
def fieldText (f : String × Json) : Text := string.print f.1 ++ ':' :: text f.2

theorem itemsText_eq (xs : List Json) :
    itemsText xs = xs.flatMap (fun x => ',' :: text x) ++ [']'] := by
  induction xs with
  | nil => simp [itemsText]
  | cons x xs ih => simp [itemsText, ih]

theorem fieldsText_eq (xs : List (String × Json)) :
    fieldsText xs = xs.flatMap (fun f => ',' :: fieldText f) ++ [Char.ofNat 125] := by
  induction xs with
  | nil => simp [fieldsText]
  | cons f xs ih =>
    obtain ⟨k, x⟩ := f
    simp [fieldsText, fieldText, ih]

theorem text_arr (x : Json) (xs : List Json) : text (.arr (x :: xs)) =
    '[' :: (text x ++ (xs.flatMap (fun x => ',' :: text x) ++ [']'])) := by
  rw [text, itemsText_eq]

theorem text_obj (f : String × Json) (xs : List (String × Json)) : text (.obj (f :: xs)) =
    Char.ofNat 123 :: (fieldText f ++ (xs.flatMap (fun f => ',' :: fieldText f) ++
      [Char.ofNat 125])) := by
  obtain ⟨k, x⟩ := f
  simp [text, fieldsText_eq, fieldText]

theorem text_ne_nil (j : Json) : text j ≠ [] := by
  cases j with
  | null => simp [text]
  | bool b => cases b <;> simp [text]
  | num m e =>
    obtain ⟨c, cs, h, -⟩ := numberText_head m e
    simp [text, h]
  | str s => simp [text, string]
  | arr xs => cases xs <;> simp [text]
  | obj xs =>
    cases xs with
    | nil => simp [text]
    | cons f xs => simp [text_obj]

/-- No value starts like the end of a list. -/
theorem skip_text (j : Json) (rest : Text) : skip [']'] (text j ++ rest) = none := by
  cases j with
  | null => simp [text, skip]
  | bool b => cases b <;> simp [text, skip]
  | num m e =>
    obtain ⟨c, cs, h, hc⟩ := numberText_head m e
    have hne : ']' ≠ c := by
      rintro rfl
      exact absurd hc (by decide)
    simp [text, h, skip, hne]
  | str s => simp [text, string, skip]
  | arr xs => cases xs <;> simp [text, skip]
  | obj xs =>
    cases xs with
    | nil => simp [text, skip]
    | cons f xs => simp [text_obj, skip]

theorem skip_fieldText (f : String × Json) (rest : Text) :
    skip [Char.ofNat 125] (fieldText f ++ rest) = none := by
  simp [fieldText, string, skip]

theorem length_lt_items {α : Type} (print : α → Text) (close : Char) (xs : List α) (rest : Text) :
    xs.length < (xs.flatMap (fun x => ',' :: print x) ++ close :: rest).length := by
  induction xs with
  | nil => simp
  | cons x xs ih =>
    simp only [List.flatMap_cons, List.length_append, List.length_cons] at ih ⊢
    omega

theorem length_le_of_mem {α : Type} (print : α → Text) {xs : List α} {x : α} (h : x ∈ xs) :
    (print x).length ≤ (xs.flatMap fun x => ',' :: print x).length := by
  induction xs with
  | nil => cases h
  | cons y ys ih =>
    simp only [List.flatMap_cons, List.length_append, List.length_cons]
    rcases List.mem_cons.mp h with rfl | h
    · omega
    · have := ih h
      omega

theorem readField_fieldText {read : Text → Option (Json × Text)} {f : String × Json} {rest : Text}
    (h : read (text f.2 ++ rest) = some (f.2, rest)) :
    readField read (fieldText f ++ rest) = some (f, rest) := by
  simp [readField, fieldText, string.read_print, skip, h]

/-- Every text is read back, whatever follows it that no number takes in. -/
theorem readValue_text (n : Nat) : ∀ (j : Json) (rest : Text), (text j).length ≤ n → Ends rest →
    readValue n (text j ++ rest) = some (j, rest) := by
  induction n with
  | zero =>
    intro j rest hn
    exact absurd (List.length_eq_zero_iff.mp (Nat.le_zero.mp hn)) (text_ne_nil j)
  | succ n ih =>
    intro j rest hn hends
    cases j with
    | null => simp [text, readValue, skip]
    | bool b => cases b <;> simp [text, readValue, skip]
    | num m e =>
      obtain ⟨c, cs, h, hc⟩ := numberText_head m e
      have hread := readNumber_numberText m e hends
      rw [text, h, List.cons_append] at *
      have hfirst : ∀ d : Char, d.isDigit = false → d ≠ '-' → c ≠ d := by
        rintro d hd hd' rfl
        exact hc.elim (fun hc => by rw [hc] at hd; cases hd) hd'
      simp [readValue, hread, hfirst 'n' (by decide) (by decide), hfirst 't' (by decide) (by decide),
        hfirst 'f' (by decide) (by decide), hfirst '"' (by decide) (by decide),
        hfirst '[' (by decide) (by decide), hfirst (Char.ofNat 123) (by decide) (by decide)]
    | str s =>
      have hread := string.read_print s rest
      obtain ⟨cs, hcs⟩ : ∃ cs, string.print s ++ rest = '"' :: cs := ⟨_, rfl⟩
      rw [hcs] at hread
      simp [text, hcs, readValue, hread]
    | arr xs =>
      cases xs with
      | nil => simp [text, readValue, skip]
      | cons x xs =>
        rw [text_arr] at hn ⊢
        simp only [List.length_cons, List.length_append] at hn
        have hitems := ends_items text (by decide : ']'.isDigit = false) xs rest
        have hfirst := ih x _ (by omega) hitems
        have hmore := readMore_print text ']' (by decide) (by decide) xs
          (fun y hy r hr => ih y r (by have := length_le_of_mem text hy; omega) hr) rest _
          (length_lt_items text ']' xs rest)
        simp [readValue, skip_text, hfirst, hmore, -List.length_append]
    | obj xs =>
      cases xs with
      | nil => simp [text, readValue, skip]
      | cons f xs =>
        rw [text_obj] at hn ⊢
        simp only [List.length_cons, List.length_append] at hn
        have hitems := ends_items fieldText (by decide : (Char.ofNat 125).isDigit = false) xs rest
        have hfield : ∀ g : String × Json, (fieldText g).length ≤ n → ∀ r, Ends r →
            readField (readValue n) (fieldText g ++ r) = some (g, r) := by
          intro g hg r hr
          refine readField_fieldText (ih g.2 r ?_ hr)
          simp only [fieldText, List.length_append, List.length_cons] at hg
          omega
        have hfirst := hfield f (by omega) _ hitems
        have hmore := readMore_print fieldText (Char.ofNat 125) (by decide) (by decide) xs
          (fun g hg => hfield g (by have := length_le_of_mem fieldText hg; omega)) rest _
          (length_lt_items fieldText (Char.ofNat 125) xs rest)
        simp [readValue, skip_fieldText, hfirst, hmore, -List.length_append]

/-! ### What a text is made of -/

mutual
/-- The strings of a value, with the keys of its objects. -/
def strings : Json → List String
  | .null | .bool _ | .num _ _ => []
  | .str s => [s]
  | .arr xs => itemsStrings xs
  | .obj fs => fieldsStrings fs
def itemsStrings : List Json → List String
  | [] => []
  | x :: xs => strings x ++ itemsStrings xs
def fieldsStrings : List (String × Json) → List String
  | [] => []
  | (k, x) :: fs => k :: (strings x ++ fieldsStrings fs)
end

/-- The characters of the literals, of numbers and of the punctuation. -/
def isMark (x : Char) : Bool := "nultrefas[],:-\x7b\x7d".toList.contains x || x.isDigit

theorem ne_of_isMark {x c : Char} (hx : isMark x = false) (hc : isMark c) : x ≠ c := by
  rintro rfl
  rw [hx] at hc
  cases hc

theorem mark_number {x : Char} (hx : isMark x = false) (m : Int) (e : Nat) :
    x ∉ numberText m e := by
  have hdigits : ∀ n, x ∉ Nat.toDigits 10 n := by
    intro n hmem
    have hdigit := Nat.isDigit_of_mem_toDigits (by decide) (by decide) hmem
    exact ne_of_isMark hx (by simp [isMark, hdigit]) rfl
  have hminus := ne_of_isMark hx (c := '-') (by decide)
  have he := ne_of_isMark hx (c := 'e') (by decide)
  unfold numberText
  split <;> simp [hdigits, hminus, he]

mutual
/-- The other characters of a text are those of its strings. -/
theorem mem_text {x : Char} (hx : isMark x = false) : (j : Json) →
    (x ∈ text j ↔ ∃ s ∈ strings j, x ∈ string.print s)
  | .null => by
    simp [text, strings, ne_of_isMark hx (c := 'n') (by decide),
      ne_of_isMark hx (c := 'u') (by decide), ne_of_isMark hx (c := 'l') (by decide)]
  | .bool true => by
    simp [text, strings, ne_of_isMark hx (c := 't') (by decide),
      ne_of_isMark hx (c := 'r') (by decide), ne_of_isMark hx (c := 'u') (by decide),
      ne_of_isMark hx (c := 'e') (by decide)]
  | .bool false => by
    simp [text, strings, ne_of_isMark hx (c := 'f') (by decide),
      ne_of_isMark hx (c := 'a') (by decide), ne_of_isMark hx (c := 'l') (by decide),
      ne_of_isMark hx (c := 's') (by decide), ne_of_isMark hx (c := 'e') (by decide)]
  | .num m e => by simp [text, strings, mark_number hx]
  | .str s => by simp [text, strings]
  | .arr [] => by
    simp [text, strings, itemsStrings, ne_of_isMark hx (c := '[') (by decide),
      ne_of_isMark hx (c := ']') (by decide)]
  | .arr (y :: ys) => by
    have hopen := ne_of_isMark hx (c := '[') (by decide)
    simp only [text, strings, itemsStrings, List.mem_cons, List.mem_append, hopen, false_or,
      mem_text hx y, mem_items hx ys, or_and_right, exists_or]
  | .obj [] => by
    simp [text, strings, fieldsStrings, ne_of_isMark hx (c := Char.ofNat 123) (by decide),
      ne_of_isMark hx (c := Char.ofNat 125) (by decide)]
  | .obj ((k, y) :: fs) => by
    have hopen := ne_of_isMark hx (c := Char.ofNat 123) (by decide)
    have hcolon := ne_of_isMark hx (c := ':') (by decide)
    simp only [text, strings, fieldsStrings, List.mem_cons, List.mem_append, hopen, hcolon,
      false_or, mem_text hx y, mem_fields hx fs, or_and_right, exists_or, exists_eq_left]
theorem mem_items {x : Char} (hx : isMark x = false) : (ys : List Json) →
    (x ∈ itemsText ys ↔ ∃ s ∈ itemsStrings ys, x ∈ string.print s)
  | [] => by simp [itemsText, itemsStrings, ne_of_isMark hx (c := ']') (by decide)]
  | y :: ys => by
    have hcomma := ne_of_isMark hx (c := ',') (by decide)
    simp only [itemsText, itemsStrings, List.mem_cons, List.mem_append, hcomma, false_or,
      mem_text hx y, mem_items hx ys, or_and_right, exists_or]
theorem mem_fields {x : Char} (hx : isMark x = false) : (fs : List (String × Json)) →
    (x ∈ fieldsText fs ↔ ∃ s ∈ fieldsStrings fs, x ∈ string.print s)
  | [] => by
    simp [fieldsText, fieldsStrings, ne_of_isMark hx (c := Char.ofNat 125) (by decide)]
  | (k, y) :: fs => by
    have hcomma := ne_of_isMark hx (c := ',') (by decide)
    have hcolon := ne_of_isMark hx (c := ':') (by decide)
    simp only [fieldsText, fieldsStrings, List.mem_cons, List.mem_append, hcomma, hcolon,
      false_or, mem_text hx y, mem_fields hx fs, or_and_right, exists_or, exists_eq_left]
end

theorem nul_escape (c : Char) : Char.ofNat 0 ∉ JsonText.escape c := by
  have hhex : ∀ d < 16, Char.ofNat 0 ≠ hexDigit d := by decide
  unfold JsonText.escape
  cases h : shortEscape c with
  | some e =>
    have hne : Char.ofNat 0 ≠ e := by
      unfold shortEscape at h
      split_ifs at h <;> cases h <;> decide
    simpa using hne
  | none =>
    by_cases hc : c.toNat < 32
    · have hhigh := hhex (c.toNat / 16) (by omega)
      have hlow := hhex (c.toNat % 16) (Nat.mod_lt _ (by decide))
      simpa [hc] using ⟨hhigh, hlow⟩
    · have hne : Char.ofNat 0 ≠ c := by
        rintro rfl
        exact hc (by decide)
      simpa [hc] using hne

/-- No text has a zero character: JSON escapes it. -/
theorem nul_text (j : Json) : Char.ofNat 0 ∉ text j := by
  rw [mem_text (by decide) j]
  simp [string, nul_escape]

/-- `to_string` of a value. -/
def toText (j : Json) : String := String.ofList (text j)

/-- The value of a whole text. -/
def fromText (s : String) : Option Json :=
  match readValue s.toList.length s.toList with
  | some (j, []) => some j
  | _ => none

theorem fromText_toText (j : Json) : fromText (toText j) = some j := by
  have h := readValue_text (text j).length j [] le_rfl (by simp [Ends])
  rw [List.append_nil] at h
  simp [fromText, toText, h]

example : toText (.obj [("a", .arr [.num (-15) 1, .null])]) =
    "\x7b\"a\":[-15e-1,null]\x7d" := by decide +kernel

end Cerebellum.Json
