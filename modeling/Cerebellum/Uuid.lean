import Mathlib.Data.List.Basic
import Mathlib.Algebra.Order.Group.Nat
import Mathlib.Tactic.IntervalCases
import Mathlib.Tactic.NormNum

/-! UUIDs as the program uses them: compared for equality, printed in the hyphenated
lower-case form, and read back with `Uuid::parse_str`. The 128-bit width is never
inspected; an identifier past it would only print with a longer last group. -/
namespace Cerebellum

structure Uuid where
  id : Nat
  deriving DecidableEq, Repr

namespace Uuid

def hexChar (d : Nat) : Char := if d < 10 then Char.ofNat (48 + d) else Char.ofNat (87 + d)

def hexVal (c : Char) : Option Nat :=
  if '0' ≤ c ∧ c ≤ '9' then some (c.toNat - 48)
  else if 'a' ≤ c ∧ c ≤ 'f' then some (c.toNat - 87)
  else if 'A' ≤ c ∧ c ≤ 'F' then some (c.toNat - 55)
  else none

/-- The last `w` hexadecimal digits of `n`, most significant first. -/
def hexDigits : Nat → Nat → List Char
  | 0, _ => []
  | w + 1, n => hexDigits w (n / 16) ++ [hexChar (n % 16)]

def decodeHex (cs : List Char) : Option Nat :=
  cs.foldl (fun acc c => acc.bind fun n => (hexVal c).map fun d => 16 * n + d) (some 0)

/-- The 8-4-4-4-12 grouping. -/
def hyphenate (cs : List Char) : List Char :=
  cs.take 8 ++ '-' :: ((cs.drop 8).take 4 ++ '-' :: ((cs.drop 12).take 4 ++
    '-' :: ((cs.drop 16).take 4 ++ '-' :: cs.drop 20)))

def width (n : Nat) : Nat := if n < 16 ^ 32 then 32 else n

/-- `Display` of a UUID. -/
def toText (u : Uuid) : String := String.ofList (hyphenate (hexDigits (width u.id) u.id))

def parseHyphenated (cs : List Char) : Option Uuid :=
  let digits := cs.filter (· ≠ '-')
  if 32 ≤ digits.length ∧ hyphenate digits = cs then (decodeHex digits).map Uuid.mk else none

/-- `Uuid::parse_str`: simple, braced, URN or hyphenated form, in either case. -/
def parseStr (s : String) : Option Uuid :=
  let cs := s.toList
  if cs.length = 32 then (decodeHex cs).map Uuid.mk
  else if cs.head? = some (Char.ofNat 123) ∧ cs.getLast? = some (Char.ofNat 125) then
    parseHyphenated cs.tail.dropLast
  else if cs.take 9 = "urn:uuid:".toList then parseHyphenated (cs.drop 9)
  else parseHyphenated cs

theorem hexVal_hexChar (d : Nat) (h : d < 16) : hexVal (hexChar d) = some d := by
  interval_cases d <;> decide

theorem hexChar_ne (d : Nat) (h : d < 16) : hexChar d ≠ '-' ∧ hexChar d ≠ Char.ofNat 123 ∧
    hexChar d ≠ 'u' := by
  interval_cases d <;> decide

theorem hexDigits_length (w n : Nat) : (hexDigits w n).length = w := by
  induction w generalizing n with
  | zero => rfl
  | succ w ih => simp [hexDigits, ih]

theorem mem_hexDigits {w n : Nat} {c : Char} (h : c ∈ hexDigits w n) :
    ∃ d < 16, c = hexChar d := by
  induction w generalizing n with
  | zero => simp [hexDigits] at h
  | succ w ih =>
    rcases List.mem_append.mp h with h | h
    · exact ih h
    · exact ⟨n % 16, Nat.mod_lt _ (by omega), by simpa using h⟩

theorem decodeHex_hexDigits (w n : Nat) : decodeHex (hexDigits w n) = some (n % 16 ^ w) := by
  induction w generalizing n with
  | zero => simp [hexDigits, decodeHex, Nat.mod_one]
  | succ w ih =>
    have hv := hexVal_hexChar (n % 16) (Nat.mod_lt _ (by omega))
    have hm : n % 16 ^ (w + 1) = 16 * (n / 16 % 16 ^ w) + n % 16 := by
      rw [pow_succ', Nat.mod_mul]
      omega
    have hi := ih (n / 16)
    simp only [decodeHex] at hi
    simp [hexDigits, decodeHex, List.foldl_append, hi, hv, hm]

theorem filter_hyphenate (cs : List Char) (h : '-' ∉ cs) :
    (hyphenate cs).filter (· ≠ '-') = cs := by
  have hkeep : ∀ l : List Char, (∀ c ∈ l, c ∈ cs) → l.filter (fun c => decide (c ≠ '-')) = l := by
    intro l hl
    refine List.filter_eq_self.mpr fun c hc => ?_
    have : c ≠ '-' := fun he => h (he ▸ hl c hc)
    simpa using this
  have h1 := hkeep (cs.take 8) (fun c => List.mem_of_mem_take)
  have h2 := hkeep ((cs.drop 8).take 4) (fun c hc => List.mem_of_mem_drop (List.mem_of_mem_take hc))
  have h3 := hkeep ((cs.drop 12).take 4) (fun c hc => List.mem_of_mem_drop (List.mem_of_mem_take hc))
  have h4 := hkeep ((cs.drop 16).take 4) (fun c hc => List.mem_of_mem_drop (List.mem_of_mem_take hc))
  have h5 := hkeep (cs.drop 20) (fun c => List.mem_of_mem_drop)
  have hcat : cs.take 8 ++ ((cs.drop 8).take 4 ++ ((cs.drop 12).take 4 ++
      ((cs.drop 16).take 4 ++ cs.drop 20))) = cs := by
    have e4 : (cs.drop 16).take 4 ++ cs.drop 20 = cs.drop 16 := by
      simpa [List.drop_drop] using List.take_append_drop 4 (cs.drop 16)
    have e3 : (cs.drop 12).take 4 ++ cs.drop 16 = cs.drop 12 := by
      simpa [List.drop_drop] using List.take_append_drop 4 (cs.drop 12)
    have e2 : (cs.drop 8).take 4 ++ cs.drop 12 = cs.drop 8 := by
      simpa [List.drop_drop] using List.take_append_drop 4 (cs.drop 8)
    rw [e4, e3, e2, List.take_append_drop]
  simp only [hyphenate, List.filter_append, List.filter_cons, h1, h2, h3, h4, h5]
  simpa using hcat

theorem width_spec (n : Nat) : 32 ≤ width n ∧ n < 16 ^ width n := by
  have hle : 32 ≤ 16 ^ 32 := by decide
  unfold width
  split
  · exact ⟨le_refl _, ‹_›⟩
  · exact ⟨by omega, Nat.lt_pow_self (by omega)⟩

theorem parseHyphenated_text (u : Uuid) :
    parseHyphenated (hyphenate (hexDigits (width u.id) u.id)) = some u := by
  have hno : '-' ∉ hexDigits (width u.id) u.id := by
    intro h
    obtain ⟨d, hd, he⟩ := mem_hexDigits h
    exact (hexChar_ne d hd).1 he.symm
  have hw := width_spec u.id
  simp only [parseHyphenated, filter_hyphenate _ hno, decodeHex_hexDigits,
    Nat.mod_eq_of_lt hw.2, hexDigits_length, hw.1, and_self, if_true, Option.map_some]

theorem hyphenate_cons (c : Char) (cs : List Char) :
    hyphenate (c :: cs) = c :: (hyphenate (c :: cs)).tail := by
  simp [hyphenate]

/-- What the program prints it can read back. -/
theorem parseStr_toText (u : Uuid) : parseStr (toText u) = some u := by
  have hlen : (hyphenate (hexDigits (width u.id) u.id)).length ≠ 32 := by
    have hl := hexDigits_length (width u.id) u.id
    have hw := (width_spec u.id).1
    simp only [hyphenate, List.length_append, List.length_cons, List.length_take,
      List.length_drop, hl]
    omega
  obtain ⟨c, cs, hc⟩ : ∃ c cs, hexDigits (width u.id) u.id = c :: cs := by
    have hl := hexDigits_length (width u.id) u.id
    cases hd : hexDigits (width u.id) u.id with
    | nil =>
      have hw := (width_spec u.id).1
      rw [hd, List.length_nil] at hl
      omega
    | cons c cs => exact ⟨c, cs, rfl⟩
  obtain ⟨d, hd, hcd⟩ := mem_hexDigits (w := width u.id) (n := u.id) (c := c) (by simp [hc])
  have hne := hexChar_ne d hd
  have hhead : (hyphenate (hexDigits (width u.id) u.id)).head? = some c := by
    rw [hc, hyphenate_cons]
    rfl
  have hurn : (hyphenate (hexDigits (width u.id) u.id)).take 9 ≠ "urn:uuid:".toList := by
    rw [hc, hyphenate_cons]
    intro h
    have := congrArg List.head? h
    simp at this
    exact hne.2.2 (hcd ▸ this)
  have hb : ¬(some c = some (Char.ofNat 123) ∧
      (hyphenate (hexDigits (width u.id) u.id)).getLast? = some (Char.ofNat 125)) := by
    rintro ⟨h, -⟩
    exact hne.2.1 (hcd ▸ Option.some.inj h)
  simp only [parseStr, toText, String.toList_ofList, if_neg hlen, hhead, if_neg hb, if_neg hurn]
  exact parseHyphenated_text u

theorem mem_hyphenate {cs : List Char} {c : Char} (h : c ∈ hyphenate cs) : c = '-' ∨ c ∈ cs := by
  simp only [hyphenate, List.mem_append, List.mem_cons] at h
  rcases h with h | h | h | h | h | h | h | h | h
  · exact .inr (List.mem_of_mem_take h)
  · exact .inl h
  · exact .inr (List.mem_of_mem_drop (List.mem_of_mem_take h))
  · exact .inl h
  · exact .inr (List.mem_of_mem_drop (List.mem_of_mem_take h))
  · exact .inl h
  · exact .inr (List.mem_of_mem_drop (List.mem_of_mem_take h))
  · exact .inl h
  · exact .inr (List.mem_of_mem_drop h)

theorem mem_toText {u : Uuid} {c : Char} (h : c ∈ u.toText.toList) :
    c = '-' ∨ ∃ d < 16, c = hexChar d := by
  rw [toText, String.toList_ofList] at h
  exact (mem_hyphenate h).imp_right mem_hexDigits

theorem toText_injective : Function.Injective toText := by
  intro u v h
  have := parseStr_toText u
  rw [h, parseStr_toText] at this
  exact (Option.some.inj this).symm

@[simp] theorem toText_inj {u v : Uuid} : toText u = toText v ↔ u = v :=
  toText_injective.eq_iff

example : toText ⟨255⟩ = "00000000-0000-0000-0000-0000000000ff" := by decide

end Uuid

end Cerebellum
