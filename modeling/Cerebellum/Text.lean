import Mathlib.Data.List.Basic
import Mathlib.Data.List.DropRight
import Mathlib.Data.List.TakeWhile

/-! Text as the program reads and writes it: a Rust string as its characters, and the bytes
of one as the byte parsers see them. -/
namespace Cerebellum

abbrev Text := List Char

namespace Text

/-- `char::is_whitespace`. -/
def isWhitespace (c : Char) : Bool :=
  let n := c.toNat
  (9 ≤ n && n ≤ 13) || n == 0x20 || n == 0x85 || n == 0xA0 || n == 0x1680 ||
    (0x2000 ≤ n && n ≤ 0x200A) || n == 0x2028 || n == 0x2029 || n == 0x202F || n == 0x205F ||
    n == 0x3000

/-- `str::trim`. -/
def trim (s : List Char) : List Char :=
  ((s.dropWhile isWhitespace).reverse.dropWhile isWhitespace).reverse

def stripCr (line : List Char) : List Char :=
  if line.getLast? = some '\r' then line.dropLast else line

/-- `str::lines`: a last line without its line feed counts when it is not empty. -/
def lines (s : List Char) : List (List Char) :=
  let parts := s.splitOn '\n'
  parts.dropLast.map stripCr ++ parts.getLast?.toList.filter fun l => !l.isEmpty

/-- `str::as_bytes`, each byte as the character that `b as char` makes of it. -/
def asBytes (s : Text) : Text := s.flatMap fun c => (String.utf8EncodeChar c).map Char.ofUInt8

/-- `char::is_alphanumeric` below 256: every character the byte parsers produce is one. -/
def isAlphanumeric (c : Char) : Bool :=
  let n := c.toNat
  c.isAlphanum || n == 0xAA || n == 0xB2 || n == 0xB3 || n == 0xB5 || n == 0xB9 || n == 0xBA ||
    (0xBC ≤ n && n ≤ 0xBE) || (0xC0 ≤ n && n ≤ 0xFF && n != 0xD7 && n != 0xF7)

/-- `u8::is_ascii_whitespace`: no vertical tab. -/
def isAsciiWhitespace (c : Char) : Bool :=
  c == ' ' || c == '\t' || c == '\n' || c == '\x0C' || c == '\r'

/-- `str::join`. -/
def join (sep : Text) (parts : List Text) : Text := List.intercalate sep parts

@[simp] theorem join_nil (sep : Text) : join sep [] = [] := rfl

@[simp] theorem join_singleton (sep s : Text) : join sep [s] = s := by simp [join]

theorem join_cons (sep s r : Text) (rs : List Text) :
    join sep (s :: r :: rs) = s ++ sep ++ join sep (r :: rs) := by
  simp [join, List.intercalate]

/-! ### Trimmed text -/

theorem trim_eq (s : Text) : trim s = (s.dropWhile isWhitespace).rdropWhile isWhitespace := rfl

theorem trim_head (s : Text) : ∀ c ∈ (trim s).head?, isWhitespace c = false := by
  intro c hc
  obtain ⟨t, ht⟩ := List.rdropWhile_prefix isWhitespace (l := s.dropWhile isWhitespace)
  rw [← trim_eq] at ht
  have hhead : (s.dropWhile isWhitespace).head? = some c := by
    rw [← ht, List.head?_append, Option.mem_def.mp hc]
    rfl
  have hnot := List.head?_dropWhile_not isWhitespace s
  rw [hhead] at hnot
  simpa using hnot

theorem trim_last (s : Text) : ∀ c ∈ (trim s).getLast?, isWhitespace c = false := by
  intro c hc
  obtain ⟨hne, rfl⟩ := List.mem_getLast?_eq_getLast hc
  exact Bool.not_eq_true _ ▸ List.rdropWhile_last_not isWhitespace (s.dropWhile isWhitespace) hne

/-- Only white space is trimmed to nothing. -/
theorem trim_eq_nil {s : Text} : trim s = [] ↔ ∀ c ∈ s, isWhitespace c := by
  rw [trim_eq, List.rdropWhile_eq_nil_iff]
  constructor
  · intro h c hc
    rw [← List.takeWhile_append_dropWhile (p := isWhitespace) (l := s)] at hc
    rcases List.mem_append.mp hc with hc | hc
    · exact List.mem_takeWhile_imp hc
    · exact h c hc
  · exact fun h c hc => h c ((List.dropWhile_suffix _).subset hc)

/-! ### Bytes of a text -/

def IsAscii (s : Text) : Prop := ∀ c ∈ s, c.toNat < 128

theorem utf8_ascii {c : Char} (h : c.toNat < 128) :
    (String.utf8EncodeChar c).map Char.ofUInt8 = [c] := by
  have hle : c.val.toNat ≤ 0x7f := Nat.le_of_lt_succ h
  simp only [String.utf8EncodeChar, hle, if_true, List.map_cons, List.map_nil, List.cons.injEq,
    and_true]
  refine Char.ext (UInt32.toNat_inj.mp ?_)
  change (UInt8.ofNat c.val.toNat).toNat = _
  rw [UInt8.toNat_ofNat']
  omega

/-- A byte of a character beyond ASCII is beyond ASCII. -/
theorem utf8_not_ascii {c b : Char} (h : ¬ c.toNat < 128)
    (hb : b ∈ (String.utf8EncodeChar c).map Char.ofUInt8) : ¬ b.toNat < 128 := by
  have hlt : ¬ c.val.toNat ≤ 0x7f := fun hle => h (Nat.lt_succ_of_le hle)
  obtain ⟨x, hx, rfl⟩ := List.mem_map.mp hb
  change ¬ x.toNat < 128
  simp only [String.utf8EncodeChar, hlt, if_false] at hx
  split at hx <;> [skip; split at hx] <;>
    (simp only [List.mem_cons, List.not_mem_nil, or_false] at hx
     rcases hx with rfl | rfl | rfl | rfl <;> rw [UInt8.toNat_ofNat'] <;> omega)

@[simp] theorem asBytes_nil : asBytes [] = [] := rfl

theorem asBytes_append (s t : Text) : asBytes (s ++ t) = asBytes s ++ asBytes t := by
  simp [asBytes]

theorem asBytes_cons {c : Char} (h : c.toNat < 128) (s : Text) :
    asBytes (c :: s) = c :: asBytes s := by
  simp [asBytes, utf8_ascii h]

theorem asBytes_ascii {s : Text} (h : IsAscii s) : asBytes s = s := by
  induction s with
  | nil => rfl
  | cons c s ih =>
    rw [asBytes_cons (h c (by simp)), ih fun d hd => h d (by simp [hd])]

theorem length_le_asBytes (s : Text) : s.length ≤ (asBytes s).length := by
  induction s with
  | nil => exact Nat.zero_le _
  | cons c s ih =>
    have hsize := Char.utf8Size_pos c
    simp only [asBytes, List.flatMap_cons, List.length_append, List.length_map,
      String.length_utf8EncodeChar, List.length_cons] at ih ⊢
    omega

theorem utf8_other {c : Char} (h : ¬ c.toNat < 128) :
    ∃ b u, (String.utf8EncodeChar c).map Char.ofUInt8 = b :: u ∧ ∀ e ∈ b :: u, ¬ e.toNat < 128 := by
  cases hb : (String.utf8EncodeChar c).map Char.ofUInt8 with
  | nil =>
    have hlen := congrArg List.length hb
    have hpos := Char.utf8Size_pos c
    rw [List.length_map, String.length_utf8EncodeChar, List.length_nil] at hlen
    omega
  | cons b u => exact ⟨b, u, rfl, fun e he => utf8_not_ascii h (hb ▸ he)⟩

/-- The first byte of a text is its first character, or beyond ASCII with it. -/
theorem asBytes_head (c : Char) (s : Text) : ∃ b u, asBytes (c :: s) = b :: u ∧
    (c.toNat < 128 → b = c) ∧ (¬ c.toNat < 128 → ¬ b.toNat < 128) := by
  by_cases hc : c.toNat < 128
  · exact ⟨c, asBytes s, asBytes_cons hc s, fun _ => rfl, fun h => absurd hc h⟩
  · obtain ⟨b, u, hbu, hbig⟩ := utf8_other hc
    refine ⟨b, u ++ asBytes s, ?_, fun h => absurd h hc, fun _ => hbig b (by simp)⟩
    rw [asBytes, List.flatMap_cons, hbu]
    rfl

/-- Bytes beyond ASCII come and go together: what only holds of ASCII is counted alike. -/
theorem countP_asBytes {p : Char → Bool} (hp : ∀ c, p c → c.toNat < 128) (s : Text) :
    (asBytes s).countP p = s.countP p := by
  induction s with
  | nil => rfl
  | cons c s ih =>
    by_cases h : c.toNat < 128
    · rw [asBytes_cons h, List.countP_cons, List.countP_cons, ih]
    · have hbytes : ((String.utf8EncodeChar c).map Char.ofUInt8).countP p = 0 :=
        List.countP_eq_zero.mpr fun b hb hpb => utf8_not_ascii h hb (hp b hpb)
      have hc : p c = false := by
        by_contra hc
        exact h (hp c (by simpa using hc))
      change (((String.utf8EncodeChar c).map Char.ofUInt8) ++ asBytes s).countP p = _
      rw [List.countP_append, hbytes, ih, Nat.zero_add, List.countP_cons, hc]
      rfl

/-- The UTF-8 bytes of a text. -/
def encode (s : Text) : List UInt8 := s.flatMap String.utf8EncodeChar

/-- `str::from_utf8`. -/
def fromUtf8 (b : List UInt8) : Option Text := b.toByteArray.utf8Decode?.map Array.toList

theorem fromUtf8_encode (s : Text) : fromUtf8 (encode s) = some s := by
  have hdecode : (encode s).toByteArray.utf8Decode? = some s.toArray := List.utf8Decode?_utf8Encode
  rw [fromUtf8, hdecode]
  simp

theorem encode_append (s t : Text) : encode (s ++ t) = encode s ++ encode t := by
  simp [encode]

theorem asBytes_eq (s : Text) : asBytes s = (encode s).map Char.ofUInt8 := by
  simp [asBytes, encode, List.map_flatMap]

/-- Bytes seen as characters decode to the text they are of. -/
theorem fromUtf8_asBytes (s : Text) : fromUtf8 ((asBytes s).map Char.toUInt8) = some s := by
  have hbyte : Char.toUInt8 ∘ Char.ofUInt8 = id := by
    funext b
    change b.toUInt32.toUInt8 = b
    exact UInt8.toUInt8_toUInt32 b
  rw [asBytes_eq, List.map_map, hbyte, List.map_id, fromUtf8_encode]

/-- Texts with the same bytes are the same. -/
theorem asBytes_inj {s t : Text} : asBytes s = asBytes t ↔ s = t := by
  constructor
  · intro h
    have hs := fromUtf8_asBytes s
    rw [h, fromUtf8_asBytes] at hs
    exact (Option.some.inj hs).symm
  · rintro rfl
    rfl

theorem mem_asBytes {c : Char} (hc : c.toNat < 128) {s : Text} : c ∈ asBytes s ↔ c ∈ s := by
  rw [asBytes, List.mem_flatMap]
  constructor
  · rintro ⟨d, hd, hcd⟩
    by_cases hascii : d.toNat < 128
    · rw [utf8_ascii hascii, List.mem_singleton] at hcd
      rw [hcd]
      exact hd
    · exact absurd hc (utf8_not_ascii hascii hcd)
  · intro h
    exact ⟨c, h, by rw [utf8_ascii hc]; simp⟩

/-- A byte of ASCII stands for its character only. -/
theorem mem_encode {b : UInt8} (hb : b.toNat < 128) {s : Text} (h : b ∈ encode s) :
    Char.ofUInt8 b ∈ s := by
  obtain ⟨c, hc, hbc⟩ := List.mem_flatMap.mp h
  have hmem : Char.ofUInt8 b ∈ (String.utf8EncodeChar c).map Char.ofUInt8 := List.mem_map_of_mem hbc
  by_cases hascii : c.toNat < 128
  · rw [utf8_ascii hascii, List.mem_singleton] at hmem
    rw [hmem]
    exact hc
  · exact absurd hb (utf8_not_ascii hascii hmem)

/-- What stands before and behind the first `a` is fixed by the text. -/
theorem append_cons_inj {a : Char} {x x' z z' : Text} (hx : a ∉ x) (hx' : a ∉ x')
    (h : x ++ a :: z = x' ++ a :: z') : x = x' ∧ z = z' := by
  induction x generalizing x' with
  | nil =>
    cases x' with
    | nil => exact ⟨rfl, (List.cons.inj h).2⟩
    | cons b x' => exact absurd ((List.cons.inj h).1 ▸ List.mem_cons_self) hx'
  | cons b x ih =>
    cases x' with
    | nil => exact absurd ((List.cons.inj h).1 ▸ List.mem_cons_self) hx
    | cons b' x' =>
      obtain ⟨hb, ht⟩ := List.cons.inj h
      obtain ⟨hxs, hz⟩ := ih (fun hm => hx (List.mem_cons_of_mem _ hm))
        (fun hm => hx' (List.mem_cons_of_mem _ hm)) ht
      exact ⟨by rw [hb, hxs], hz⟩

/-- A number at the end, behind a mark that is no digit, is read back. -/
theorem append_toDigits_inj {c : Char} (hc : c.isDigit = false) {s t : Text} {n m : Nat}
    (h : s ++ c :: Nat.toDigits 10 n = t ++ c :: Nat.toDigits 10 m) : s = t ∧ n = m := by
  have hno : ∀ k, c ∉ (Nat.toDigits 10 k).reverse := by
    intro k hk
    have hdigit := Nat.isDigit_of_mem_toDigits (by decide) (by decide) (List.mem_reverse.mp hk)
    rw [hc] at hdigit
    cases hdigit
  have hrev : (Nat.toDigits 10 n).reverse ++ c :: s.reverse =
      (Nat.toDigits 10 m).reverse ++ c :: t.reverse := by
    simpa using congrArg List.reverse h
  obtain ⟨hdigits, hrest⟩ := append_cons_inj (hno n) (hno m) hrev
  refine ⟨List.reverse_injective hrest, ?_⟩
  rw [← Nat.ofDigitChars_ten_toDigits (n := n), List.reverse_injective hdigits,
    Nat.ofDigitChars_ten_toDigits]

end Text

end Cerebellum
