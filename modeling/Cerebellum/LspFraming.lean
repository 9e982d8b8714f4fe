import Cerebellum.Text
import Cerebellum.Lib.Span
import Mathlib.Algebra.Order.Group.Nat

/-! The byte streams between clara-pitsnake and a language server: what `writer_task` writes for
a message, and how the loop of `reader_task` takes a stream apart again. -/
namespace Cerebellum.Lsp

abbrev Bytes := List UInt8

/-- A message body. A `Vec<u8>` holds at most `isize::MAX` bytes. -/
structure Body where
  bytes : Bytes
  fits : bytes.length < 2 ^ 63

def lineEnd : Text := ['\r', '\n']

/-- `Content-Length: n`. -/
def contentLengthText (n : Nat) : Text := "Content-Length: ".toList ++ Nat.toDigits 10 n

/-- What `writer_task` writes for one message. -/
def writeFrame (body : Body) : Bytes :=
  Text.encode (contentLengthText body.bytes.length ++ lineEnd ++ lineEnd) ++ body.bytes

/-- All that `writer_task` writes for the messages it receives, while no write fails. -/
def writerTask (bodies : List Body) : Bytes := bodies.flatMap writeFrame

/-! ### The reader -/

/-- `read_line`: up to the line feed, which is taken along, or to the end of the stream. -/
def readLine (s : Bytes) : Bytes × Bytes :=
  match s.dropWhile (· != 10) with
  | [] => (s, [])
  | c :: rest => (s.takeWhile (· != 10) ++ [c], rest)

def isLineEnd (c : Char) : Bool := c == '\r' || c == '\n'

/-- `trim_end_matches`. -/
def trimLine (s : Text) : Text := s.rdropWhile isLineEnd

def stripPrefix (p s : Text) : Option Text :=
  if p.isPrefixOf s then some (s.drop p.length) else none

/-- `str::parse::<usize>`: a plus sign is allowed. -/
def parseUsize (s : Text) : Option Nat :=
  let digits := if s.head? = some '+' then s.tail else s
  let n := Nat.ofDigitChars 10 digits 0
  if digits ≠ [] ∧ digits.all Char.isDigit ∧ n < 2 ^ 64 then some n else none

/-- The `content_len` behind a header line. A length that does not parse is only logged. -/
def headerLength (known : Option Nat) (line : Text) : Option Nat :=
  match stripPrefix "Content-Length:".toList line with
  | some rest => (parseUsize (Text.trim rest)).or known
  | none => known

/-- The loop of `read_content_length`. A line that is not UTF-8 is an error of `read_line`. -/
def headerLoop : Nat → Option Nat → Bytes → Option Nat × Bytes
  | 0, _, s => (none, s)
  | fuel + 1, known, s =>
    match readLine s with
    | ([], rest) => (none, rest)
    | (line, rest) =>
      match Text.fromUtf8 line with
      | none => (none, rest)
      | some text =>
        if trimLine text = [] then (known, rest)
        else headerLoop fuel (headerLength known (trimLine text)) rest

def readContentLength (s : Bytes) : Option Nat × Bytes := headerLoop (s.length + 1) none s

/-- The header and `read_exact`. At the end of the stream nothing of a body is kept. -/
def readFrame (s : Bytes) : Option Bytes × Bytes :=
  match readContentLength s with
  | (none, rest) => (none, rest)
  | (some n, rest) => if n ≤ rest.length then (some (rest.take n), rest.drop n) else (none, [])

/-- The bodies `reader_task` hands to the JSON parser, and what it has not read when it ends. -/
def readerTask (s : Bytes) : List Bytes × Bytes := Span.drain readFrame (s.length + 1) s

/-! ### Lines -/

theorem stripPrefix_append (p s : Text) : stripPrefix p (p ++ s) = some s := by
  have hprefix : p.isPrefixOf (p ++ s) := List.isPrefixOf_iff_prefix.mpr (List.prefix_append p s)
  rw [stripPrefix, if_pos hprefix, List.drop_left]

theorem readLine_append {u : Bytes} (hu : 10 ∉ u) (rest : Bytes) :
    readLine (u ++ 10 :: rest) = (u ++ [10], rest) := by
  have hstop : ∀ b ∈ u, (b != 10) = true := by
    intro b hb
    rw [bne_iff_ne]
    rintro rfl
    exact hu hb
  have hten : ∀ b ∈ (10 :: rest).head?, (b != 10) = false := by simp
  rw [readLine, Span.dropWhile_append_stop hstop hten, Span.takeWhile_append_stop hstop hten]

/-- A text without a line break, as a header line. -/
structure IsLine (s : Text) : Prop where
  noFeed : '\n' ∉ s
  ends : ∀ c ∈ s.getLast?, isLineEnd c = false

theorem encode_lineEnd (s : Text) : Text.encode (s ++ lineEnd) = Text.encode s ++ [13] ++ [10] := by
  rw [Text.encode_append, List.append_assoc]
  rfl

theorem readLine_line {s : Text} (hs : IsLine s) (rest : Bytes) :
    readLine (Text.encode (s ++ lineEnd) ++ rest) = (Text.encode (s ++ lineEnd), rest) := by
  have hten : (10 : UInt8) ∉ Text.encode s ++ [13] := by
    intro h
    rcases List.mem_append.mp h with h | h
    · exact hs.noFeed (Text.mem_encode (by decide) h)
    · exact absurd h (by decide)
  rw [encode_lineEnd, List.append_assoc]
  exact readLine_append hten rest

theorem trimLine_line {s : Text} (hs : IsLine s) : trimLine (s ++ lineEnd) = s := by
  have hfeed : isLineEnd '\n' = true := rfl
  have hreturn : isLineEnd '\r' = true := rfl
  have hsplit : s ++ lineEnd = (s ++ ['\r']) ++ ['\n'] := by simp [lineEnd]
  rw [trimLine, hsplit, List.rdropWhile_concat_pos _ _ _ hfeed,
    List.rdropWhile_concat_pos _ _ _ hreturn]
  refine List.rdropWhile_eq_self_iff.mpr fun hne => ?_
  have hlast := hs.ends (s.getLast hne) (List.getLast?_eq_some_getLast hne)
  simp [hlast]

/-- One round of the header loop. -/
theorem headerLoop_line {s : Text} (hs : IsLine s) (fuel : Nat) (known : Option Nat)
    (rest : Bytes) :
    headerLoop (fuel + 1) known (Text.encode (s ++ lineEnd) ++ rest) =
      if s = [] then (known, rest) else headerLoop fuel (headerLength known s) rest := by
  have hne : Text.encode (s ++ lineEnd) ≠ [] := by simp [encode_lineEnd]
  rw [headerLoop, readLine_line hs]
  split
  · next heq => exact absurd (congrArg Prod.fst heq) hne
  · next heq =>
    obtain ⟨rfl, rfl⟩ := Prod.mk.inj heq
    simp only [Text.fromUtf8_encode, trimLine_line hs]

/-! ### Frames -/

/-- A header line `name:value` other than the length. -/
structure HeaderLine where
  name : Text
  value : Text
  name_chars : ∀ c ∈ name, c ≠ ':' ∧ isLineEnd c = false
  value_chars : ∀ c ∈ value, isLineEnd c = false
  name_ne : name ≠ "Content-Length".toList

namespace HeaderLine

def text (h : HeaderLine) : Text := h.name ++ ':' :: h.value

theorem text_ne (h : HeaderLine) : h.text ≠ [] := by simp [text]

theorem text_chars (h : HeaderLine) : ∀ c ∈ h.text, isLineEnd c = false := by
  intro c hc
  rcases List.mem_append.mp hc with hc | hc
  · exact (h.name_chars c hc).2
  · rcases List.mem_cons.mp hc with rfl | hc
    · rfl
    · exact h.value_chars c hc

theorem isLine (h : HeaderLine) : IsLine h.text where
  noFeed hn := absurd (h.text_chars _ hn) (by decide)
  ends c hc := h.text_chars c (List.mem_of_getLast? hc)

theorem lengthPrefix_eq : "Content-Length:".toList = "Content-Length".toList ++ [':'] := by decide

/-- Such a line says nothing about the length. -/
theorem headerLength_text (h : HeaderLine) (known : Option Nat) :
    headerLength known h.text = known := by
  have hname : ':' ∉ h.name := fun hc => (h.name_chars ':' hc).1 rfl
  have hprefix : ¬ "Content-Length:".toList.isPrefixOf h.text := by
    rw [List.isPrefixOf_iff_prefix, lengthPrefix_eq]
    rintro ⟨rest, hrest⟩
    rw [List.append_assoc] at hrest
    exact h.name_ne (Text.append_cons_inj (by decide) hname hrest).1.symm
  rw [headerLength, stripPrefix, if_neg hprefix]

end HeaderLine

/-- A message with the header lines before and behind its length. -/
structure Frame where
  before : List HeaderLine := []
  behind : List HeaderLine := []
  body : Body

def lineBytes (s : Text) : Bytes := Text.encode (s ++ lineEnd)

def linesBytes (lines : List HeaderLine) : Bytes := lines.flatMap fun h => lineBytes h.text

def Frame.bytes (f : Frame) : Bytes :=
  linesBytes f.before ++ (lineBytes (contentLengthText f.body.bytes.length) ++
    (linesBytes f.behind ++ (lineBytes [] ++ f.body.bytes)))

theorem writeFrame_eq (body : Body) : writeFrame body = Frame.bytes ⟨[], [], body⟩ := by
  simp [writeFrame, Frame.bytes, linesBytes, lineBytes, Text.encode_append]

theorem lineBytes_length (s : Text) : 1 ≤ (lineBytes s).length := by
  rw [lineBytes, encode_lineEnd]
  simp

theorem headerLoop_lines (lines : List HeaderLine) {fuel : Nat} (known : Option Nat) (rest : Bytes)
    (hfuel : lines.length ≤ fuel) : headerLoop fuel known (linesBytes lines ++ rest) =
      headerLoop (fuel - lines.length) known rest := by
  induction lines generalizing fuel with
  | nil => rfl
  | cons h lines ih =>
    obtain ⟨n, rfl⟩ : ∃ n, fuel = n + 1 := ⟨fuel - 1, by simp at hfuel; omega⟩
    have hfewer : lines.length ≤ n := by
      simp only [List.length_cons] at hfuel
      omega
    have hrest := ih hfewer
    have hline := headerLoop_line h.isLine n known (linesBytes lines ++ rest)
    rw [if_neg h.text_ne, h.headerLength_text, hrest] at hline
    simpa [linesBytes, lineBytes] using hline

theorem digits_not_lineEnd {n : Nat} {c : Char} (hc : c ∈ Nat.toDigits 10 n) :
    isLineEnd c = false ∧ Text.isWhitespace c = false ∧ c ≠ '+' := by
  have hdigit : c.isDigit := Nat.isDigit_of_mem_toDigits (by decide) (by decide) hc
  have hne : ∀ d : Char, d.isDigit = false → c ≠ d := by
    rintro d hd rfl
    rw [hdigit] at hd
    cases hd
  have hrange : 48 ≤ c.toNat ∧ c.toNat ≤ 57 := by
    simpa [Char.isDigit, UInt32.le_iff_toNat_le] using hdigit
  refine ⟨?_, ?_, hne '+' rfl⟩
  · simp [isLineEnd, hne '\r' rfl, hne '\n' rfl]
  · simp only [Text.isWhitespace, Bool.or_eq_false_iff, Bool.and_eq_false_iff,
      decide_eq_false_iff_not, beq_eq_false_iff_ne]
    omega

theorem parseUsize_toDigits {n : Nat} (hn : n < 2 ^ 64) :
    parseUsize (Nat.toDigits 10 n) = some n := by
  have hplus : (Nat.toDigits 10 n).head? ≠ some '+' := by
    intro h
    exact (digits_not_lineEnd (List.mem_of_head? h)).2.2 rfl
  have hdigits : (Nat.toDigits 10 n).all Char.isDigit :=
    List.all_eq_true.mpr fun c hc => Nat.isDigit_of_mem_toDigits (by decide) (by decide) hc
  simp only [parseUsize, hplus, if_false, Nat.ofDigitChars_ten_toDigits]
  exact if_pos ⟨Nat.toDigits_ne_nil, hdigits, hn⟩

theorem trim_digits (n : Nat) : Text.trim (' ' :: Nat.toDigits 10 n) = Nat.toDigits 10 n := by
  have hspace : Text.isWhitespace ' ' = true := rfl
  have hkeep : ∀ s : Text, (∀ c ∈ s, Text.isWhitespace c = false) →
      s.dropWhile Text.isWhitespace = s := by
    intro s hs
    cases s with
    | nil => rfl
    | cons c s => simp [hs c (by simp)]
  have hdigits : ∀ c ∈ Nat.toDigits 10 n, Text.isWhitespace c = false := fun c hc =>
    (digits_not_lineEnd hc).2.1
  rw [Text.trim, List.dropWhile_cons_of_pos hspace, hkeep _ hdigits,
    hkeep _ fun c hc => hdigits c (List.mem_reverse.mp hc), List.reverse_reverse]

theorem contentLength_isLine (n : Nat) : IsLine (contentLengthText n) := by
  have hchars : ∀ c ∈ contentLengthText n, isLineEnd c = false := by
    have hname : "Content-Length: ".toList.all fun c => !isLineEnd c := by decide
    intro c hc
    rcases List.mem_append.mp hc with hc | hc
    · simpa using List.all_eq_true.mp hname c hc
    · exact (digits_not_lineEnd hc).1
  exact ⟨fun h => absurd (hchars _ h) (by decide), fun c hc => hchars c (List.mem_of_getLast? hc)⟩

theorem contentLengthText_eq (n : Nat) :
    contentLengthText n = "Content-Length:".toList ++ ' ' :: Nat.toDigits 10 n := by
  have hspace : "Content-Length: ".toList = "Content-Length:".toList ++ [' '] := by decide
  unfold contentLengthText
  rw [hspace, List.append_assoc, List.singleton_append]

theorem headerLength_contentLength {n : Nat} (hn : n < 2 ^ 64) (known : Option Nat) :
    headerLength known (contentLengthText n) = some n := by
  rw [contentLengthText_eq, headerLength, stripPrefix_append]
  simp [trim_digits, parseUsize_toDigits hn]

/-- The header of a frame is read up to its blank line, and no further. -/
theorem headerLoop_frame (f : Frame) {fuel : Nat} (rest : Bytes)
    (hfuel : f.before.length + f.behind.length + 2 ≤ fuel) :
    headerLoop fuel none (f.bytes ++ rest) =
      (some f.body.bytes.length, f.body.bytes ++ rest) := by
  have hlt : f.body.bytes.length < 2 ^ 64 := Nat.lt_of_lt_of_le f.body.fits (by decide)
  have hne : contentLengthText f.body.bytes.length ≠ [] := by
    rw [contentLengthText_eq]
    exact List.append_ne_nil_of_right_ne_nil _ (List.cons_ne_nil _ _)
  have hempty : IsLine [] := ⟨by simp, by simp⟩
  simp only [Frame.bytes, List.append_assoc]
  rw [headerLoop_lines f.before none _ (by omega)]
  obtain ⟨n, hn⟩ : ∃ n, fuel - f.before.length = n + 1 := ⟨fuel - f.before.length - 1, by omega⟩
  rw [hn, lineBytes, headerLoop_line (contentLength_isLine _), if_neg hne,
    headerLength_contentLength hlt, headerLoop_lines f.behind _ _ (by omega)]
  obtain ⟨m, hm⟩ : ∃ m, n - f.behind.length = m + 1 := ⟨n - f.behind.length - 1, by omega⟩
  rw [hm, lineBytes, headerLoop_line hempty, if_pos rfl]

theorem linesBytes_length (lines : List HeaderLine) : lines.length ≤ (linesBytes lines).length := by
  induction lines with
  | nil => simp
  | cons h lines ih =>
    have hline := lineBytes_length h.text
    simp only [linesBytes, List.flatMap_cons, List.length_cons, List.length_append] at ih ⊢
    omega

theorem Frame.length_bytes (f : Frame) :
    f.before.length + f.behind.length + 2 ≤ f.bytes.length := by
  have hbefore := linesBytes_length f.before
  have hbehind := linesBytes_length f.behind
  have hlength := lineBytes_length (contentLengthText f.body.bytes.length)
  have hblank := lineBytes_length []
  simp only [Frame.bytes, List.length_append]
  omega

theorem readFrame_bytes (f : Frame) (rest : Bytes) :
    readFrame (f.bytes ++ rest) = (some f.body.bytes, rest) := by
  have hlen := f.length_bytes
  have hheader : readContentLength (f.bytes ++ rest) =
      (some f.body.bytes.length, f.body.bytes ++ rest) :=
    headerLoop_frame f rest (by simp; omega)
  rw [readFrame, hheader]
  simp

/-- A stream of frames, with any other header lines, is taken apart into its bodies, and read to
its end. -/
theorem readerTask_frames (frames : List Frame) :
    readerTask (frames.flatMap Frame.bytes) = (frames.map fun f => f.body.bytes, []) := by
  refine Span.drain_flatMap readFrame_bytes rfl ?_
  induction frames with
  | nil => simp
  | cons f frames ih =>
    have hlen := f.length_bytes
    simp only [List.flatMap_cons, List.length_append, List.length_cons] at ih ⊢
    omega

/-- What `writer_task` writes is read back body by body; so is a stream whose frames carry
other header lines. -/
theorem framing_round_trips :
    (∀ bodies : List Body, readerTask (writerTask bodies) = (bodies.map Body.bytes, [])) ∧
      ∀ frames : List Frame,
        readerTask (frames.flatMap Frame.bytes) = (frames.map fun f => f.body.bytes, []) := by
  refine ⟨fun bodies => ?_, readerTask_frames⟩
  have hwriter : writerTask bodies =
      (bodies.map fun body => Frame.mk [] [] body).flatMap Frame.bytes := by
    rw [writerTask, List.flatMap_map]
    exact List.flatMap_congr fun body _ => writeFrame_eq body
  rw [hwriter, readerTask_frames, List.map_map]
  rfl

end Cerebellum.Lsp
