import Cerebellum.Scanner
import Cerebellum.TransduceSpec

/-! The scanners return on every input: no index or slice is out of range, every round of a loop
and every call within a call begins further on, and what is returned is what the parsers on texts
read. -/
namespace Cerebellum.Scanner
open Transpile Reader

variable {α β : Type} {input : Text} {p : Nat}

/-- From `q` on the method returns `x`, a value or an error, and it is `l` bytes behind `p` then at
least when it is a value. -/
def Reads (l : Nat) (m : Scan α) (x : Parsed α) (input : Text) (p q : Nat) : Prop :=
  Returns m input q (fun a s => x = .ok a (input.drop s) ∧ p + l ≤ s ∧ s ≤ input.length)
    (fun _ s => (∃ e, x = .error e (input.drop s)) ∧ p ≤ s ∧ s ≤ input.length)

/-- The method returns what the parser reads from the text that is left, and has moved by `k`
bytes at least when that is a value. -/
def Agrees (k : Nat) (m : Scan α) (r : Text → Parsed α) (input : Text) (p : Nat) : Prop :=
  Reads k m (r (input.drop p)) input p p

theorem Reads.ite {l q : Nat} {c : Prop} [Decidable c] {m m' : Scan α} {x x' : Parsed α}
    (h : c → Reads l m x input p q) (h' : ¬ c → Reads l m' x' input p q) :
    Reads l (if c then m else m') (if c then x else x') input p q := by
  split
  · next hc => exact h hc
  · next hc => exact h' hc

/-- What a method reads further on. -/
theorem Agrees.later {k l q : Nat} {m : Scan α} {r : Text → Parsed α} {x : Parsed α}
    (h : Agrees k m r input q) (hx : r (input.drop q) = x) (hpq : p ≤ q) (hl : p + l ≤ q + k) :
    Reads l m x input p q := by
  subst hx
  exact Returns.mono h (fun _ _ ⟨ha, hle, hs⟩ => ⟨ha, by omega, hs⟩)
    fun _ _ ⟨he, hle, hs⟩ => ⟨he, by omega, hs⟩

/-- A method that goes on with what another has read. -/
theorem Agrees.then {k l q : Nat} {m : Scan α} {n : α → Scan β} {r : Text → Parsed α}
    {x : α → Text → Parsed β} (h : Agrees k m r input q) (hpq : p ≤ q)
    (hn : ∀ a s, q + k ≤ s → s ≤ input.length → Reads l (n a) (x a (input.drop s)) input p s) :
    Reads l (m >>= n) ((r (input.drop q)).bind x) input p q := by
  refine (returns_bind m n).mpr (Returns.mono h (fun a s ⟨ha, hle, hs⟩ => ?_)
    fun e s ⟨⟨e', he⟩, hle, hs⟩ => ?_)
  · rw [ha]
    exact hn a s hle hs
  · exact ⟨⟨e', by rw [he]; rfl⟩, by omega, hs⟩

/-- A method that wraps up what another has read. -/
theorem Agrees.wrap {k l q : Nat} {m : Scan α} {r : Text → Parsed α} (f : α → β)
    (h : Agrees k m r input q) (hpq : p ≤ q) (hl : p + l ≤ q + k) :
    Reads l (m >>= fun a => pure (f a)) ((r (input.drop q)).map f) input p q := by
  refine (returns_bind m _).mpr (Returns.mono h (fun a s ⟨ha, hle, hs⟩ => ?_)
    fun e s ⟨⟨e', he⟩, hle, hs⟩ => ?_)
  · exact ⟨by rw [ha]; rfl, by omega, hs⟩
  · exact ⟨⟨e', by rw [he]; rfl⟩, by omega, hs⟩

/-! ### Lexical parts -/

theorem returns_skipWs {E : String → Nat → Prop} (hp : p ≤ input.length) :
    Returns skipWs input p (fun _ q => SkipsTo Text.isAsciiWhitespace input p q) E :=
  returns_skipIndexed hp

theorem skipsTo_skipWs {q : Nat} (h : SkipsTo Text.isAsciiWhitespace input p q) :
    Transpile.skipWs (input.drop p) = input.drop q := h.left.symm

theorem quotedAtom_close {u : Text} (h : u.head? ≠ some '\'') :
    quotedAtom ('\'' :: u) = .ok [] u := by
  rw [quotedAtom.eq_def]
  cases u with
  | nil => rfl
  | cons c u =>
    have hc : c ≠ '\'' := by simpa using h
    simp [hc]

theorem Parsed.map_append (x : Parsed Text) (s t : Text) :
    (x.map (t ++ ·)).map (s ++ ·) = x.map (s ++ t ++ ·) := by
  cases x <;> simp [Parsed.map]

/-- What one more round of a loop has read. -/
theorem round_agrees {r : Text → Parsed Text} {s t u v : Text} {q q' : Nat}
    (hv : input.drop q' = v) (hpq : p ≤ q) (hqq' : q < q') (hlen : q' ≤ input.length)
    (h : r u = (r v).map (t ++ ·)) :
    (p ≤ q' ∧ (r u).map (s ++ ·) = (r (input.drop q')).map (s ++ t ++ ·)) ∧
      q < q' ∧ q' ≤ input.length := by
  rw [hv, h, Parsed.map_append]
  exact ⟨⟨by omega, rfl⟩, hqq', hlen⟩

theorem quotedBody_agrees (hp : p ≤ input.length) :
    Agrees 1 quotedBody Transpile.quotedAtom input p := by
  refine returns_loop (fun s q => p ≤ q ∧
      quotedAtom (input.drop p) = (quotedAtom (input.drop q)).map (s ++ ·)) hp ⟨Nat.le_refl p, ?_⟩
    fun s q hq ⟨hle, hinv⟩ => ?_
  · cases quotedAtom (input.drop p) <;> rfl
  simp only [returns_bind]
  cases hu : input.drop q with
  | nil =>
    rw [returns_next_nil hu hq, hinv, hu]
    exact ⟨⟨_, by rw [hu]; rfl⟩, hle, hq⟩
  | cons b u =>
    obtain ⟨-, hdrop, hlt⟩ := drop_eq_cons hu
    rw [returns_next_cons hu, hinv, hu]
    simp only [returns_ite]
    split
    · next h =>
      subst h
      rw [returns_bind]
      by_cases hdoubled : u.head? = some '\''
      · obtain ⟨v, rfl⟩ := List.head?_eq_some_iff.mp hdoubled
        obtain ⟨-, hdrop', hlt'⟩ := drop_eq_cons hdrop
        simp only [returns_peek_cons hdrop, if_true, returns_bind, returns_next_cons hdrop]
        exact round_agrees hdrop' hle (by omega) hlt' rfl
      · have hstop : (quotedAtom ('\'' :: u)).map (s ++ ·) = .ok s (input.drop (q + 1)) := by
          rw [quotedAtom_close hdoubled, hdrop]
          simp [Parsed.map]
        have hpeek : input[q + 1]? ≠ some '\'' := by
          rwa [← hdrop, List.head?_drop] at hdoubled
        simp only [returns_peek, hpeek, if_false, returns_pure]
        exact ⟨hstop, by omega, hlt⟩
    · next hquote =>
      split
      · next h =>
        subst h
        rw [returns_bind]
        cases u with
        | nil =>
          rw [returns_next_nil hdrop hlt]
          exact ⟨⟨_, by rw [hdrop]; rfl⟩, by omega, hlt⟩
        | cons c v =>
          obtain ⟨-, hdrop', hlt'⟩ := drop_eq_cons hdrop
          rw [returns_next_cons hdrop]
          exact round_agrees hdrop' hle (by omega) hlt' (by rw [quotedAtom.eq_def]; simp)
      · next hback =>
        exact round_agrees hdrop hle (by omega) hlt (quotedAtom_other hquote hback u)

/-- The two parsers of double quoted text differ in their errors only. -/
structure ReadsString (r : Text → Parsed Text) : Prop where
  unterminated : ∃ e, r [] = .error e []
  close : ∀ u, r ('"' :: u) = .ok [] u
  unterminatedEscape : ∃ e, r ['\\'] = .error e []
  escape : ∀ c u, r ('\\' :: c :: u) = (r u).map ([doubleQuotedEscape c] ++ ·)
  other : ∀ b u, b ≠ '"' → b ≠ '\\' → r (b :: u) = (r u).map ([b] ++ ·)

theorem readsString_doubleQuoted : ReadsString doubleQuoted where
  unterminated := ⟨_, rfl⟩
  close u := by
    rw [doubleQuoted.eq_def]
    simp
  unterminatedEscape := ⟨"unterminated escape in string", by simp [doubleQuoted]⟩
  escape c u := by
    rw [doubleQuoted.eq_def]
    simp
  other b u hq hb := by
    rw [doubleQuoted.eq_def]
    simp [hq, hb]

theorem readsString_stringBody : ReadsString stringBody where
  unterminated := ⟨_, rfl⟩
  close u := by
    rw [stringBody.eq_def]
    simp
  unterminatedEscape := ⟨"unterminated escape in CLIPS string", by simp [stringBody]⟩
  escape c u := by
    rw [stringBody.eq_def]
    simp
  other b u hq hb := by
    rw [stringBody.eq_def]
    simp [hq, hb]

theorem doubleQuotedBody_agrees {r : Text → Parsed Text} (hr : ReadsString r) (m m' : String)
    (hp : p ≤ input.length) : Agrees 1 (doubleQuotedBody m m') r input p := by
  refine returns_loop (fun s q => p ≤ q ∧ r (input.drop p) = (r (input.drop q)).map (s ++ ·)) hp
    ⟨Nat.le_refl p, ?_⟩ fun s q hq ⟨hle, hinv⟩ => ?_
  · cases r (input.drop p) <;> rfl
  simp only [returns_bind]
  cases hu : input.drop q with
  | nil =>
    obtain ⟨e, he⟩ := hr.unterminated
    rw [returns_next_nil hu hq, hinv, hu]
    exact ⟨⟨e, by rw [hu, he]; rfl⟩, hle, hq⟩
  | cons b u =>
    obtain ⟨-, hdrop, hlt⟩ := drop_eq_cons hu
    rw [returns_next_cons hu, hinv, hu]
    simp only [returns_ite]
    split
    · next h =>
      subst h
      refine ⟨?_, by omega, hlt⟩
      rw [hr.close, hdrop]
      simp [Parsed.map]
    · next hquote =>
      split
      · next h =>
        subst h
        rw [returns_bind]
        cases u with
        | nil =>
          obtain ⟨e, he⟩ := hr.unterminatedEscape
          rw [returns_next_nil hdrop hlt]
          exact ⟨⟨e, by rw [hdrop, he]; rfl⟩, by omega, hlt⟩
        | cons c v =>
          obtain ⟨-, hdrop', hlt'⟩ := drop_eq_cons hdrop
          rw [returns_next_cons hdrop]
          exact round_agrees hdrop' hle (by omega) hlt' (hr.escape c v)
      · next hback =>
        exact round_agrees hdrop hle (by omega) hlt (hr.other b u hquote hback)

theorem returns_fromUtf8 {s : Text} (h : Text.IsAscii s) {Q : Text → Nat → Prop}
    {E : String → Nat → Prop} : Returns (fromUtf8 s) input p Q E ↔ Q s p := by
  have hs := Text.fromUtf8_asBytes s
  rw [Text.asBytes_ascii h] at hs
  rw [fromUtf8, hs, returns_pure]

section Terms
variable {φ : Type} {F : FloatText φ}

theorem digit_ascii {c : Char} (h : c.isDigit) : c.toNat < 128 :=
  ident_ascii (by simp [isIdent, Char.isAlphanum, h])

def signText (minus : Bool) : Text := if minus then ['-'] else []

theorem parseI64Text_eq (minus : Bool) {digits : Text} (h : ∀ c ∈ digits, c.isDigit) :
    parseI64Text (signText minus ++ digits) = parseI64 minus digits := by
  cases minus with
  | true => rfl
  | false =>
    cases digits with
    | nil => rfl
    | cons c digits =>
      have hc : c ≠ '-' := by
        rintro rfl
        exact absurd (h '-' (by simp)) (by decide)
      show parseI64Text (c :: digits) = _
      unfold parseI64Text
      split
      · next heq => exact absurd (List.cons.inj heq).1 hc
      · rfl

theorem isAscii_number (minus : Bool) {s : Text} (h : ∀ c ∈ s, c.isDigit ∨ c = '.') :
    Text.IsAscii (signText minus ++ s) := by
  intro c hc
  rcases List.mem_append.mp hc with hc | hc
  · cases minus with
    | true =>
      rw [List.mem_singleton.mp hc]
      decide
    | false => exact absurd hc List.not_mem_nil
  · rcases h c hc with hdigit | rfl
    · exact digit_ascii hdigit
    · decide

theorem parseUnsigned_agrees {start k : Nat} {minus : Bool} (hp : p ≤ input.length)
    (hs : start ≤ p) (hsign : part input start p = signText minus)
    (hk : ∀ q, SkipsTo Char.isDigit input p q → p + k ≤ q) :
    Agrees k (parseUnsigned F start) (Transpile.parseUnsigned F minus) input p := by
  unfold parseUnsigned Agrees Reads
  simp only [returns_bind]
  refine (returns_skipPeeked hp).mono (fun _ q hq => ?_) fun _ _ h => h
  have hpq := hq.le
  have hkq := hk q hq
  have hdigits : ∀ c ∈ part input p q, c.isDigit := by
    rw [hq.taken]
    exact fun c hc => List.mem_takeWhile_imp hc
  have htext : part input start q = signText minus ++ part input p q := by
    rw [part_append hs hpq, hsign]
  have hmem : ∀ c ∈ part input p q, c.isDigit ∨ c = '.' := fun c hc => .inl (hdigits c hc)
  by_cases hpoint : (input.drop q).head? = some '.'
  · obtain ⟨v, hv⟩ := List.head?_eq_some_iff.mp hpoint
    obtain ⟨-, hdrop, hlt⟩ := drop_eq_cons hv
    simp only [returns_peek_cons hv, if_true, returns_bind, returns_next_cons hv]
    refine (returns_skipPeeked hlt).mono (fun _ r hr => ?_) fun _ _ h => h
    have hqr := hr.le
    have hall : part input start r =
        signText minus ++ part input p q ++ '.' :: v.takeWhile Char.isDigit := by
      rw [part_append (by omega) (by omega : q ≤ r), htext, part_cons hv (by omega), hr.taken, hdrop]
    have hascii : Text.IsAscii (part input start r) := by
      rw [hall, List.append_assoc]
      refine isAscii_number minus fun c hc => ?_
      rcases List.mem_append.mp hc with hc | hc
      · exact hmem c hc
      · rcases List.mem_cons.mp hc with rfl | hc
        · exact .inr rfl
        · exact .inl (List.mem_takeWhile_imp hc)
    have hcode : part input start r = (if minus then ['-'] else []) ++
        (input.drop p).takeWhile Char.isDigit ++ '.' :: v.takeWhile Char.isDigit := by
      rw [hall, hq.taken]
      rfl
    refine returns_slice (by omega) hr.inRange ?_
    rw [returns_fromUtf8 hascii, Transpile.parseUnsigned, ← hq.left, hv]
    cases hfloat : F.parse (part input start r) with
    | some f =>
      refine ⟨?_, by omega, hr.inRange⟩
      simp only [← hcode, hfloat, hr.left, hdrop]
    | none =>
      refine ⟨⟨"invalid float literal", ?_⟩, by omega, hr.inRange⟩
      simp only [← hcode, hfloat, hr.left, hdrop]
  · have hpeek : input[q]? ≠ some '.' := by rwa [List.head?_drop] at hpoint
    have hnot : ∀ v, input.drop q ≠ '.' :: v := fun v hv => hpoint (by rw [hv]; rfl)
    simp only [returns_peek, hpeek, if_false, returns_bind]
    refine returns_slice (by omega) hq.inRange ?_
    rw [htext, returns_fromUtf8 (isAscii_number minus hmem), parseI64Text_eq minus hdigits,
      Transpile.parseUnsigned, ← hq.left, ← hq.taken]
    cases parseI64 minus (part input p q) with
    | ok n =>
      refine ⟨?_, by omega, hq.inRange⟩
      split
      · next v hv => exact absurd hv (hnot v)
      · rfl
    | error m =>
      refine ⟨⟨m, ?_⟩, by omega, hq.inRange⟩
      split
      · next v hv => exact absurd hv (hnot v)
      · rfl

theorem parseNumber_agrees {b : Char} {u : Text} (hu : input.drop p = b :: u)
    (hb : b = '-' ∨ b.isDigit) :
    Agrees 1 (parseNumber F) (Transpile.parseNumber F) input p := by
  obtain ⟨-, hdrop, hlt⟩ := drop_eq_cons hu
  unfold parseNumber Agrees Reads
  simp only [returns_bind, returns_position, returns_peek_cons hu, Option.some_inj, returns_ite]
  split
  · next h =>
    subst h
    simp only [returns_next_cons hu, hu]
    have hsign : part input p (p + 1) = signText true := by
      rw [part_cons hu (by omega), part_self]
      rfl
    exact (parseUnsigned_agrees hlt (by omega) hsign fun _ hq => hq.le).later (k := 0)
      (by rw [hdrop]; rfl) (by omega) (Nat.le_refl _)
  · next hdash =>
    have hread : Transpile.parseNumber F (input.drop p) =
        Transpile.parseUnsigned F false (input.drop p) := by
      rw [hu, Transpile.parseNumber]
      simpa using hdash
    rw [hread]
    refine parseUnsigned_agrees (by omega) (Nat.le_refl p) part_self fun q hq =>
      hq.lt hu (hb.resolve_left hdash)

theorem ident_text {q : Nat} (h : SkipsTo isIdent input p q) :
    Text.IsAscii (part input p q) := by
  rw [h.taken]
  exact fun c hc => ident_ascii (List.mem_takeWhile_imp hc)

theorem parseVariable_agrees {b : Char} {u : Text} (hu : input.drop p = b :: u) (hb : isIdent b) :
    Agrees 1 (parseVariable (φ := φ)) Transpile.parseVariable input p := by
  obtain ⟨-, -, hlt⟩ := drop_eq_cons hu
  unfold parseVariable Agrees Reads
  simp only [returns_bind, returns_position]
  refine (returns_skipPeeked (by omega)).mono (fun _ q hq => ?_) fun _ _ h => h
  refine returns_slice hq.le hq.inRange ?_
  rw [returns_fromUtf8 (ident_text hq), returns_pure, Transpile.parseVariable, hq.left, hq.taken]
  exact ⟨rfl, hq.lt hu hb, hq.inRange⟩

theorem parseList_agrees {W : Wording} {b : Char} {u : Text} (hu : input.drop p = b :: u) :
    Agrees 1 (parseList (φ := φ) W) (fun u => Transpile.parseList u.tail) input p := by
  obtain ⟨-, hdrop, hlt⟩ := drop_eq_cons hu
  unfold parseList Agrees Reads
  simp only [returns_bind, returns_next_cons hu]
  refine (returns_skipWs hlt).mono (fun _ q hq => ?_) fun _ _ h => h
  have hskip := skipsTo_skipWs hq
  rw [hdrop] at hskip
  have hle := hq.le
  simp only [hu, List.tail_cons, Transpile.parseList, hskip]
  by_cases hclose : (input.drop q).head? = some ']'
  · obtain ⟨v, hv⟩ := List.head?_eq_some_iff.mp hclose
    obtain ⟨-, hdrop', hlt'⟩ := drop_eq_cons hv
    simp only [returns_peek_cons hv, if_true, returns_bind, returns_next_cons hv, returns_pure, hv,
      hdrop', true_and]
    omega
  · have hpeek : input[q]? ≠ some ']' := by rwa [List.head?_drop] at hclose
    simp only [returns_peek, hpeek, if_false, returns_fail]
    refine ⟨⟨"non-empty list terms are not supported in the transpiler", ?_⟩, by omega,
      hq.inRange⟩
    split
    · next v hv => exact absurd (by rw [hv]; rfl) hclose
    · rfl

/-! ### Calls within a call -/

/-- From behind `p` on, calls read terms. -/
def ReadsTerms (F : FloatText φ) (term : Scan (Transpile.Term φ)) (input : Text) (p : Nat) : Prop :=
  ∀ q, p < q → q ≤ input.length → ∀ f, input.length < q + f →
    Agrees 1 term (Transpile.parseTerm F f) input q

theorem Parsed.map_cons (x : Parsed (List α)) (t : α) (ts : List α) :
    (x.map (t :: ·)).map (ts ++ ·) = x.map (ts ++ [t] ++ ·) := by
  cases x <;> simp [Parsed.map]

theorem argsLoop_agrees {term : Scan (Transpile.Term φ)} {start f : Nat}
    (hterm : ReadsTerms F term input start) (hp : p ≤ input.length) (hs : start < p)
    (hf : input.length + 1 < p + f) :
    Agrees 1 (argsRounds term) (argsLoop F f) input p := by
  refine returns_loop (fun args q => p ≤ q ∧ ∃ g, input.length + 1 < q + g ∧
    argsLoop F f (input.drop p) = (argsLoop F g (input.drop q)).map (args ++ ·)) hp
    ⟨Nat.le_refl p, f, hf, ?_⟩ fun args q hq hround => ?_
  · cases argsLoop F f (input.drop p) <;> rfl
  obtain ⟨hle, g, hg, hinv⟩ := hround
  obtain ⟨g, rfl⟩ : ∃ g', g = g' + 1 := Nat.exists_eq_succ_of_ne_zero (by omega)
  rw [hinv]
  simp only [argsLoop, returns_bind]
  refine (hterm q (by omega) hq g (by omega)).mono (fun t r hok => ?_) fun e r herr => ?_
  swap
  · obtain ⟨⟨e', he⟩, hqr, hr⟩ := herr
    exact ⟨⟨e', by rw [he]; rfl⟩, by omega, hr⟩
  obtain ⟨ht, hqr, hr⟩ := hok
  rw [ht, Parsed.bind]
  refine (returns_skipWs hr).mono (fun _ r' hr' => ?_) fun _ _ h => h
  have hskip := skipsTo_skipWs hr'
  have hrr' := hr'.le
  rw [argsTail, hskip]
  cases hv : input.drop r' with
  | nil =>
    rw [returns_peek_nil hv hr'.inRange]
    exact ⟨⟨_, by rw [hv]; rfl⟩, by omega, hr'.inRange⟩
  | cons b v =>
    obtain ⟨-, hdrop, hlt⟩ := drop_eq_cons hv
    rw [returns_peek_cons hv]
    simp only [returns_ite, returns_bind]
    split
    · next h =>
      subst h
      rw [returns_next_cons hv]
      refine ⟨⟨by omega, g, by omega, ?_⟩, by omega, hlt⟩
      rw [hdrop, ← Parsed.map_cons]
      rfl
    · next hcomma =>
      split
      · next h =>
        subst h
        rw [returns_next_cons hv]
        exact ⟨by rw [hdrop]; rfl, by omega, hlt⟩
      · next hclose =>
        refine ⟨⟨gotInArgs b, ?_⟩, by omega, hr'.inRange⟩
        rw [hv]
        simp [Parsed.map]

theorem parseArgs_agrees {term : Scan (Transpile.Term φ)} {start f : Nat}
    (hterm : ReadsTerms F term input start) (hp : p ≤ input.length) (hs : start < p)
    (hf : input.length + 1 < p + f) :
    Agrees 1 (parseArgs term) (Transpile.parseArgs (argsLoop F f)) input p := by
  unfold parseArgs Agrees Reads
  simp only [returns_bind]
  refine (returns_skipWs hp).mono (fun _ q hq => ?_) fun _ _ h => h
  have hskip := skipsTo_skipWs hq
  have hpq := hq.le
  rw [Transpile.parseArgs, hskip]
  by_cases hclose : (input.drop q).head? = some ')'
  · obtain ⟨v, hv⟩ := List.head?_eq_some_iff.mp hclose
    obtain ⟨-, hdrop, hlt⟩ := drop_eq_cons hv
    simp only [returns_peek_cons hv, if_true, returns_bind, returns_next_cons hv, returns_pure, hv,
      hdrop, true_and]
    omega
  · have hpeek : input[q]? ≠ some ')' := by rwa [List.head?_drop] at hclose
    simp only [returns_peek, hpeek, if_false]
    split
    · next v hv => exact absurd (by rw [hv]; rfl) hclose
    · exact (argsLoop_agrees hterm hq.inRange (by omega) (by omega)).later rfl hpq (by omega)

theorem maybeCompound_agrees {term : Scan (Transpile.Term φ)} {start f : Nat}
    (hterm : ReadsTerms F term input start) (hp : p ≤ input.length) (hs : start < p)
    (hf : input.length < p + f) (functor : Text) :
    Agrees 0 (maybeCompound term functor)
      (Transpile.maybeCompound (argsLoop F f) functor) input p := by
  unfold maybeCompound Agrees Reads
  simp only [returns_bind]
  refine (returns_skipWs hp).mono (fun _ q hq => ?_) fun _ _ h => h
  have hskip := skipsTo_skipWs hq
  have hpq := hq.le
  rw [Transpile.maybeCompound, hskip]
  by_cases hopen : (input.drop q).head? = some '('
  · obtain ⟨v, hv⟩ := List.head?_eq_some_iff.mp hopen
    obtain ⟨-, hdrop, hlt⟩ := drop_eq_cons hv
    subst hdrop
    simp only [returns_peek_cons hv, if_true, hv]
    rw [returns_bind, returns_next_cons hv]
    exact (parseArgs_agrees hterm hlt (by omega) (f := f) (by omega)).wrap _ (by omega) (by omega)
  · have hpeek : input[q]? ≠ some '(' := by rwa [List.head?_drop] at hopen
    simp only [returns_peek, hpeek, if_false, returns_pure]
    split
    · next v hv => exact absurd (by rw [hv]; rfl) hopen
    · exact ⟨rfl, by omega, hq.inRange⟩

theorem parseQuotedAtom_agrees {term : Scan (Transpile.Term φ)} {start f : Nat} {b : Char} {u : Text}
    (hterm : ReadsTerms F term input start) (hu : input.drop p = b :: u) (hs : start ≤ p)
    (hf : input.length ≤ p + f) :
    Agrees 1 (parseQuotedAtom term)
      (fun u => (quotedAtom u.tail).bind (Transpile.maybeCompound (argsLoop F f))) input p := by
  obtain ⟨-, hdrop, hlt⟩ := drop_eq_cons hu
  subst hdrop
  unfold parseQuotedAtom Agrees Reads
  rw [hu, returns_bind, returns_next_cons hu]
  exact (quotedBody_agrees hlt).then (by omega) fun s q hpq hq =>
    (maybeCompound_agrees hterm hq (by omega) (by omega) s).later rfl (by omega) (by omega)

theorem parseDoubleQuoted_agrees {b : Char} {u : Text} (hu : input.drop p = b :: u) :
    Agrees 1 (parseDoubleQuoted (φ := φ)) (fun u => (doubleQuoted u.tail).map .str) input p := by
  obtain ⟨-, hdrop, hlt⟩ := drop_eq_cons hu
  subst hdrop
  unfold parseDoubleQuoted Agrees Reads
  rw [hu, returns_bind, returns_next_cons hu]
  exact (doubleQuotedBody_agrees readsString_doubleQuoted _ _ hlt).wrap _ (by omega) (by omega)

theorem parseAtomOrCompound_agrees {term : Scan (Transpile.Term φ)} {start f : Nat} {b : Char} {u : Text}
    (hterm : ReadsTerms F term input start) (hu : input.drop p = b :: u) (hb : isIdent b)
    (hs : start ≤ p) (hf : input.length ≤ p + f) :
    Agrees 1 (parseAtomOrCompound term)
      (fun u => Transpile.maybeCompound (argsLoop F f) (u.takeWhile isIdent) (u.dropWhile isIdent))
      input p := by
  obtain ⟨-, -, hlt⟩ := drop_eq_cons hu
  unfold parseAtomOrCompound Agrees Reads
  simp only [returns_bind, returns_position]
  refine (returns_skipPeeked (by omega)).mono (fun _ q hq => ?_) fun _ _ h => h
  have hpq := hq.lt hu hb
  refine returns_slice hq.le hq.inRange ?_
  rw [returns_fromUtf8 (ident_text hq), ← hq.left, hq.taken]
  exact (maybeCompound_agrees hterm hq.inRange (by omega) (by omega) _).later rfl hq.le (by omega)

/-- What is done with the next byte, with that byte in front. -/
theorem parseTerm_cons {f : Nat} {b : Char} {u v : Text} (h : Transpile.skipWs u = b :: v) :
    Transpile.parseTerm F (f + 1) u =
      if b = '\'' then (quotedAtom v).bind (Transpile.maybeCompound (argsLoop F f))
      else if b = '"' then (doubleQuoted v).map .str
      else if b = '[' then Transpile.parseList v
      else if b = '-' || b.isDigit then Transpile.parseNumber F (b :: v)
      else if b.isUpper || b = '_' then Transpile.parseVariable (b :: v)
      else if b.isLower then Transpile.maybeCompound (argsLoop F f)
        ((b :: v).takeWhile isIdent) ((b :: v).dropWhile isIdent)
      else .error ("unexpected character '" ++ b.toString ++ "' in Prolog term") (b :: v) := by
  rw [Transpile.parseTerm, h]

theorem parseTermTo_agrees (W : Wording) (depth : Nat) (hp : p ≤ input.length)
    (hd : input.length < p + depth) {f : Nat} (hf : input.length < p + f) :
    Agrees 1 (parseTermTo F W depth) (Transpile.parseTerm F f) input p := by
  induction depth generalizing p f with
  | zero => omega
  | succ depth ih =>
    obtain ⟨f, rfl⟩ : ∃ f', f = f' + 1 := Nat.exists_eq_succ_of_ne_zero (by omega)
    have hterm : ReadsTerms F (beyond p (parseTermTo F W depth)) input p :=
      fun q hpq hq g hg => returns_beyond hpq (ih hq (by omega) hg)
    unfold parseTermTo Agrees Reads
    simp only [returns_bind, returns_position]
    refine (returns_skipWs hp).mono (fun _ q hq => ?_) fun _ _ h => h
    have hskip := skipsTo_skipWs hq
    have hpq := hq.le
    cases hv : input.drop q with
    | nil =>
      rw [returns_peek_nil hv hq.inRange, Transpile.parseTerm, hskip, hv]
      exact ⟨⟨_, by rw [hv]⟩, hpq, hq.inRange⟩
    | cons b v =>
      obtain ⟨-, hdrop, hlt⟩ := drop_eq_cons hv
      rw [hv] at hskip
      rw [returns_peek_cons hv, parseTerm_cons hskip]
      refine Reads.ite (fun _ => ?_) fun _ => .ite (fun _ => ?_) fun _ => .ite (fun _ => ?_)
        fun _ => .ite (fun h => ?_) fun _ => .ite (fun h => ?_) fun _ => .ite (fun h => ?_)
        fun _ => ?_
      · exact (parseQuotedAtom_agrees (f := f) hterm hv hpq (by omega)).later (by rw [hv]; rfl) hpq (by omega)
      · exact (parseDoubleQuoted_agrees hv).later (by rw [hv]; rfl) hpq (by omega)
      · exact (parseList_agrees hv).later (by rw [hv]; rfl) hpq (by omega)
      · exact (parseNumber_agrees hv (by simpa using h)).later (by rw [hv]) hpq (by omega)
      · have hb : isIdent b := by
          rcases (by simpa using h : b.isUpper ∨ b = '_') with h | h
          · exact isIdent_iff.mpr (.inl h)
          · exact isIdent_iff.mpr (.inr (.inr (.inr h)))
        exact (parseVariable_agrees hv hb).later (by rw [hv]) hpq (by omega)
      · have hb : isIdent b := isIdent_iff.mpr (.inr (.inl h))
        exact (parseAtomOrCompound_agrees (f := f) hterm hv hb hpq (by omega)).later (by rw [hv])
          hpq (by omega)
      · exact ⟨⟨_, by rw [hv]⟩, hpq, hq.inRange⟩

theorem parseTerm_agrees (W : Wording) (hp : p ≤ input.length) {f : Nat}
    (hf : input.length < p + f) :
    Agrees 1 (parseTerm F W) (Transpile.parseTerm F f) input p := by
  have h := parseTermTo_agrees (F := F) W (input.length + 1) hp (by omega) hf
  unfold Agrees Reads Returns at h ⊢
  rw [parseTerm]
  exact h

/-! ### Facts -/

theorem parseSymbol_agrees (hp : p ≤ input.length) :
    Agrees 1 parseSymbol Transpile.parseSymbol input p := by
  unfold parseSymbol Agrees Reads
  simp only [returns_bind, returns_position, returns_ite]
  refine (returns_skipPeeked hp).mono (fun _ q hq => ?_) fun _ _ h => h
  have hpq := hq.le
  rw [Transpile.parseSymbol, ← hq.left, ← hq.taken]
  by_cases hstay : q = p
  · subst hstay
    simp only [if_true, part_self, returns_fail]
    exact ⟨⟨_, rfl⟩, Nat.le_refl q, hp⟩
  · obtain ⟨b, u, hu⟩ : ∃ b u, input.drop p = b :: u :=
      List.exists_cons_of_ne_nil (by
        rw [Ne, List.drop_eq_nil_iff]
        have := hq.inRange
        omega)
    have hne : part input p q ≠ [] := by
      rw [part_cons hu (by omega)]
      exact List.cons_ne_nil _ _
    simp only [hstay, hne, if_false]
    refine returns_slice hpq hq.inRange ?_
    rw [fromUtf8]
    cases Text.fromUtf8 ((part input p q).map Char.toUInt8) with
    | some s => exact ⟨rfl, by omega, hq.inRange⟩
    | none => exact ⟨⟨_, rfl⟩, by omega, hq.inRange⟩

theorem variable_ascii {c : Char} (h : isVariableByte c) : c.toNat < 128 := by
  by_cases hdash : c = '-'
  · rw [hdash]
    decide
  · exact ident_ascii (by simpa [isVariableByte, isIdent, hdash] using h)

theorem parseFactVariable_agrees {b : Char} {u : Text} (hu : input.drop p = b :: u) :
    Agrees 1 (parseFactVariable (φ := φ))
      (fun u => .ok (.var (capitalizeFirst (u.tail.takeWhile isVariableByte)))
        (u.tail.dropWhile isVariableByte)) input p := by
  obtain ⟨-, hdrop, hlt⟩ := drop_eq_cons hu
  unfold parseFactVariable Agrees Reads
  simp only [returns_bind, returns_position, returns_next_cons hu, hu, List.tail_cons]
  refine (returns_skipPeeked hlt).mono (fun _ q hq => ?_) fun _ _ h => h
  have hpq := hq.le
  have hascii : Text.IsAscii (part input (p + 1) q) := by
    rw [hq.taken]
    exact fun c hc => variable_ascii (List.mem_takeWhile_imp hc)
  refine returns_slice hq.le hq.inRange ?_
  rw [returns_fromUtf8 hascii, returns_pure, hq.left, hq.taken, hdrop]
  exact ⟨rfl, hpq, hq.inRange⟩

theorem parseString_agrees {b : Char} {u : Text} (hu : input.drop p = b :: u) :
    Agrees 1 (parseString (φ := φ)) (fun u => (stringBody u.tail).map .str) input p := by
  obtain ⟨-, hdrop, hlt⟩ := drop_eq_cons hu
  subst hdrop
  unfold parseString Agrees Reads
  rw [hu, returns_bind, returns_next_cons hu]
  exact (doubleQuotedBody_agrees readsString_stringBody _ _ hlt).wrap _ (by omega) (by omega)

theorem parseField_agrees (hp : p ≤ input.length) :
    Agrees 1 (parseField F) (Transpile.parseField F) input p := by
  unfold parseField Agrees Reads
  rw [returns_bind]
  refine (returns_skipWs hp).mono (fun _ q hq => ?_) fun _ _ h => h
  have hpq := hq.le
  rw [returns_bind, Transpile.parseField, skipsTo_skipWs hq]
  cases hv : input.drop q with
  | nil =>
    rw [returns_peek_nil hv hq.inRange]
    have h := (parseSymbol_agrees hq.inRange).wrap (l := 1) (Transpile.Term.atom (φ := φ)) hpq (by omega)
    rw [hv] at h
    exact h
  | cons b v =>
    rw [returns_peek_cons hv]
    refine Reads.ite (fun _ => ?_) fun _ => .ite (fun _ => ?_) fun _ => .ite (fun h => ?_)
      fun _ => ?_
    · exact (parseString_agrees hv).later (by rw [hv]; rfl) hpq (by omega)
    · exact (parseFactVariable_agrees hv).later (by rw [hv]; rfl) hpq (by omega)
    · have hb : b = '-' ∨ b.isDigit := by
        rcases (by simpa using h : b.isDigit ∨ b = '-') with h | h
        · exact .inr h
        · exact .inl h
      exact (parseNumber_agrees hv hb).later (by rw [hv]) hpq (by omega)
    · have h := (parseSymbol_agrees hq.inRange).wrap (l := 1) (Transpile.Term.atom (φ := φ)) hpq (by omega)
      rw [hv] at h
      exact h

theorem factFields_agrees (hp : p ≤ input.length) {f : Nat} (hf : input.length < p + f) :
    Agrees 1 (factFields F) (parseFields F f) input p := by
  refine returns_loop (fun args q => p ≤ q ∧ ∃ g, input.length < q + g ∧
    parseFields F f (input.drop p) = (parseFields F g (input.drop q)).map (args ++ ·)) hp
    ⟨Nat.le_refl p, f, hf, ?_⟩ fun args q hq hround => ?_
  · cases parseFields F f (input.drop p) <;> rfl
  obtain ⟨hle, g, hg, hinv⟩ := hround
  obtain ⟨g, rfl⟩ : ∃ g', g = g' + 1 := Nat.exists_eq_succ_of_ne_zero (by omega)
  rw [hinv, parseFields]
  simp only [returns_bind]
  refine (returns_skipWs hq).mono (fun _ r hr => ?_) fun _ _ h => h
  have hqr := hr.le
  rw [skipsTo_skipWs hr]
  cases hv : input.drop r with
  | nil =>
    rw [returns_peek_nil hv hr.inRange]
    exact ⟨⟨_, by rw [hv]; rfl⟩, by omega, hr.inRange⟩
  | cons b v =>
    obtain ⟨-, hdrop, hlt⟩ := drop_eq_cons hv
    rw [returns_peek_cons hv]
    simp only [returns_ite, returns_bind]
    split
    · next h =>
      subst h
      rw [returns_next_cons hv]
      refine ⟨?_, by omega, hlt⟩
      simp [hdrop, Parsed.map]
    · have hfield := parseField_agrees (F := F) hr.inRange
      unfold Agrees Reads at hfield
      rw [hv] at hfield
      refine hfield.mono (fun t s hok => ?_) fun e s herr => ?_
      · obtain ⟨ht, hrs, hs⟩ := hok
        rw [ht]
        refine ⟨⟨by omega, g, by omega, ?_⟩, by omega, hs⟩
        simp only [Parsed.bind, Parsed.map_cons]
      · obtain ⟨⟨e', he⟩, hrs, hs⟩ := herr
        rw [he]
        exact ⟨⟨e', by simp [Parsed.bind, Parsed.map]⟩, by omega, hs⟩

theorem parseFact_agrees (hp : p ≤ input.length) :
    Agrees 1 (parseFact F) (Transpile.parseFact F) input p := by
  unfold parseFact Agrees Reads
  rw [returns_bind]
  refine (returns_skipWs hp).mono (fun _ q hq => ?_) fun _ _ h => h
  have hpq := hq.le
  rw [returns_bind, returns_peek, Transpile.parseFact, skipsTo_skipWs hq]
  by_cases hopen : (input.drop q).head? = some '('
  · obtain ⟨v, hv⟩ := List.head?_eq_some_iff.mp hopen
    obtain ⟨hsome, hdrop, hlt⟩ := drop_eq_cons hv
    simp only [hsome, if_true, hv]
    subst hdrop
    rw [returns_bind, returns_next_cons hv, returns_bind]
    refine (returns_skipWs hlt).mono (fun _ r hr => ?_) fun _ _ h => h
    have hqr := hr.le
    rw [skipsTo_skipWs hr]
    refine (parseSymbol_agrees hr.inRange).then (by omega) fun functor s hrs hs => ?_
    have hlen : input.length < s + ((input.drop s).length + 1) := by
      rw [List.length_drop]
      omega
    exact (factFields_agrees (F := F) hs hlen).wrap (factTerm functor) (by omega) (by omega)
  · have hpeek : input[q]? ≠ some '(' := by rwa [List.head?_drop] at hopen
    simp only [hpeek, if_false, returns_fail]
    split
    · next v hv => exact absurd (by rw [hv]; rfl) hopen
    · exact ⟨⟨_, rfl⟩, hpq, hq.inRange⟩

/-! ### Rules -/

theorem skipWsAndComments_skipWs (u : Text) :
    Transpile.skipWsAndComments false (Transpile.skipWs u) =
      Transpile.skipWsAndComments false u := by
  induction u with
  | nil => rfl
  | cons c u ih =>
    by_cases hc : Text.isAsciiWhitespace c
    · rw [Transpile.skipWs, List.dropWhile_cons, if_pos hc, Transpile.skipWsAndComments]
      simp only [Bool.false_eq_true, if_false, hc, if_true]
      exact ih
    · rw [Transpile.skipWs, List.dropWhile_cons, if_neg hc]

theorem skipWsAndComments_line (u : Text) :
    Transpile.skipWsAndComments false (u.dropWhile (· != '\n')) =
      Transpile.skipWsAndComments true u := by
  induction u with
  | nil => rfl
  | cons c u ih =>
    by_cases hc : c = '\n'
    · subst hc
      simp [Transpile.skipWsAndComments, Text.isAsciiWhitespace]
    · have hc' : (c != '\n') = true := by simpa using hc
      rw [List.dropWhile_cons, if_pos hc', ih, Transpile.skipWsAndComments, if_pos rfl, hc']

theorem returns_skipWsAndComments {E : String → Nat → Prop} (hp : p ≤ input.length) :
    Returns skipWsAndComments input p (fun _ q => p ≤ q ∧ q ≤ input.length ∧
      Transpile.skipWsAndComments false (input.drop p) = input.drop q) E := by
  refine returns_loop (fun _ q => p ≤ q ∧ Transpile.skipWsAndComments false (input.drop p) =
    Transpile.skipWsAndComments false (input.drop q)) hp ⟨Nat.le_refl p, rfl⟩
    fun _ q hq ⟨hle, hinv⟩ => ?_
  rw [returns_bind]
  refine (returns_skipWs hq).mono (fun _ r hr => ?_) fun _ _ h => h
  have hqr := hr.le
  rw [hinv, ← skipWsAndComments_skipWs, skipsTo_skipWs hr]
  simp only [returns_bind, returns_peek, returns_ite]
  split
  · next hpercent =>
    obtain ⟨v, hv⟩ := List.head?_eq_some_iff.mp ((List.head?_drop).trans hpercent)
    refine (returns_skipIndexed hr.inRange).mono (fun _ s hs => ?_) fun _ _ h => h
    have hrs := hs.lt hv rfl
    refine ⟨⟨by omega, ?_⟩, by omega, hs.inRange⟩
    rw [hs.left, skipWsAndComments_line, hv]
    simp [Transpile.skipWsAndComments, Text.isAsciiWhitespace]
  · next hpercent =>
    refine ⟨by omega, hr.inRange, ?_⟩
    cases hv : input.drop r with
    | nil => rfl
    | cons b v =>
      have hb : b ≠ '%' := by
        rintro rfl
        exact hpercent (drop_eq_cons hv).1
      have hws : Text.isAsciiWhitespace b = false := by
        have hhead := List.head?_dropWhile_not Text.isAsciiWhitespace (input.drop q)
        rw [← hr.left, hv] at hhead
        simpa using hhead
      simp [Transpile.skipWsAndComments, hb, hws]

theorem returns_skipToPeriod {E : String → Nat → Prop} (hp : p ≤ input.length) :
    Returns skipToPeriod input p (fun _ q => (p < input.length → p < q) ∧ p ≤ q ∧
      q ≤ input.length ∧ Transpile.skipToPeriod (input.drop p) = input.drop q) E := by
  refine returns_loop (fun _ q => p ≤ q ∧ Transpile.skipToPeriod (input.drop p) =
    Transpile.skipToPeriod (input.drop q)) hp ⟨Nat.le_refl p, rfl⟩
    fun _ q hq ⟨hle, hinv⟩ => ?_
  rw [returns_bind, hinv]
  cases hv : input.drop q with
  | nil =>
    obtain ⟨-, hend⟩ := drop_eq_nil hv hq
    rw [returns_next_nil hv hq]
    exact ⟨fun h => by omega, hle, hq, hv.symm⟩
  | cons b v =>
    obtain ⟨-, hdrop, hlt⟩ := drop_eq_cons hv
    rw [returns_next_cons hv]
    simp only [returns_ite, Transpile.skipToPeriod]
    split
    · exact ⟨fun _ => by omega, by omega, hlt, hdrop.symm⟩
    · exact ⟨⟨by omega, by rw [hdrop]⟩, by omega, hlt⟩

/-- The next two bytes. -/
def firstTwo : Text → Option (Char × Char)
  | a :: b :: _ => some (a, b)
  | _ => none

theorem returns_peekTwo {Q : Option (Char × Char) → Nat → Prop} {E : String → Nat → Prop}
    (hp : p ≤ input.length) (h : Q (firstTwo (input.drop p)) p) :
    Returns peekTwo input p Q E := by
  unfold peekTwo
  simp only [returns_bind, returns_position, returns_length, returns_ite]
  split
  · next hlt =>
    refine returns_index (by omega) (returns_index hlt ?_)
    rw [List.drop_eq_getElem_cons (by omega), List.drop_eq_getElem_cons hlt] at h
    exact h
  · next hend =>
    have hshort : (input.drop p).length ≤ 1 := by
      rw [List.length_drop]
      omega
    rcases hu : input.drop p with _ | ⟨a, _ | ⟨b, u⟩⟩
    · rwa [hu] at h
    · rwa [hu] at h
    · rw [hu] at hshort
      simp at hshort

theorem firstTwo_eq {u : Text} {a b : Char} : firstTwo u = some (a, b) ↔ ∃ v, u = a :: b :: v := by
  constructor
  · intro h
    match u with
    | [] | [_] => exact absurd h (by simp [firstTwo])
    | c :: d :: v =>
      obtain ⟨rfl, rfl⟩ : c = a ∧ d = b := by simpa [firstTwo] using h
      exact ⟨v, rfl⟩
  · rintro ⟨v, rfl⟩
    rfl

theorem returns_skipN {a b : Char} {v : Text} (h : input.drop p = a :: b :: v)
    {Q : Unit → Nat → Prop} {E : String → Nat → Prop} (hQ : Q () (p + 2)) :
    Returns (skipN 2) input p Q E := by
  obtain ⟨-, hdrop, -⟩ := drop_eq_cons h
  obtain ⟨-, -, hlt⟩ := drop_eq_cons hdrop
  unfold skipN
  simp only [returns_bind, returns_position, returns_length, Nat.min_eq_left hlt]
  exact returns_moveTo hlt hQ

theorem ruleTerm_agrees (W : Wording) (hp : p ≤ input.length) :
    Agrees 1 (parseTerm F W) (ruleTerm F) input p := by
  have hlen : input.length < p + ((input.drop p).length + 1) := by
    rw [List.length_drop]
    omega
  exact parseTerm_agrees W hp hlen

theorem parseGoalAtom_agrees (hp : p ≤ input.length) :
    Agrees 1 (parseGoalAtom F) (Transpile.parseGoalAtom F) input p := by
  unfold parseGoalAtom Agrees Reads
  rw [returns_bind]
  refine (returns_skipWs hp).mono (fun _ q hq => ?_) fun _ _ h => h
  have hpq := hq.le
  rw [returns_bind, returns_peek, Transpile.parseGoalAtom, skipsTo_skipWs hq]
  by_cases hopen : (input.drop q).head? = some '('
  · obtain ⟨v, hv⟩ := List.head?_eq_some_iff.mp hopen
    obtain ⟨hsome, hdrop, hlt⟩ := drop_eq_cons hv
    simp only [hsome, if_true, hv]
    subst hdrop
    rw [returns_bind, returns_next_cons hv]
    refine (ruleTerm_agrees ruleParser hlt).then (by omega) fun t r hqr hr => ?_
    unfold Reads
    rw [returns_bind]
    refine (returns_skipWs hr).mono (fun _ s hs => ?_) fun _ _ h => h
    have hrs := hs.le
    rw [returns_bind, returns_peek, skipsTo_skipWs hs]
    by_cases hclose : (input.drop s).head? = some ')'
    · obtain ⟨w, hw⟩ := List.head?_eq_some_iff.mp hclose
      obtain ⟨hsome', hdrop', hlt'⟩ := drop_eq_cons hw
      simp only [hsome', if_true, returns_bind, returns_next_cons hw, returns_pure, hw, hdrop',
        true_and]
      omega
    · have hpeek : input[s]? ≠ some ')' := by rwa [List.head?_drop] at hclose
      simp only [hpeek, if_false, returns_pure]
      split
      · next w hw => exact absurd (by rw [hw]; rfl) hclose
      · exact ⟨rfl, by omega, hs.inRange⟩
  · have hpeek : input[q]? ≠ some '(' := by rwa [List.head?_drop] at hopen
    simp only [hpeek, if_false]
    split
    · next v hv => exact absurd (by rw [hv]; rfl) hopen
    · exact (ruleTerm_agrees ruleParser hq.inRange).later rfl hpq (by omega)

theorem parseGoal_agrees (hp : p ≤ input.length) :
    Agrees 1 (parseGoal F) (Transpile.parseGoal F) input p := by
  unfold parseGoal Agrees Reads
  rw [returns_bind]
  refine (returns_skipWs hp).mono (fun _ q hq => ?_) fun _ _ h => h
  have hpq := hq.le
  rw [returns_bind, Transpile.parseGoal, skipsTo_skipWs hq]
  refine returns_peekTwo hq.inRange ?_
  by_cases hnot : firstTwo (input.drop q) = some ('\\', '+')
  · obtain ⟨v, hv⟩ := firstTwo_eq.mp hnot
    obtain ⟨-, hdrop, -⟩ := drop_eq_cons hv
    obtain ⟨-, hdrop', hlt⟩ := drop_eq_cons hdrop
    rw [if_pos hnot, hv]
    subst hdrop'
    rw [returns_bind]
    refine returns_skipN hv ?_
    rw [returns_bind]
    refine (returns_skipWs hlt).mono (fun _ r hr => ?_) fun _ _ h => h
    have hqr := hr.le
    simp only [skipsTo_skipWs hr]
    exact (parseGoalAtom_agrees hr.inRange).wrap _ (by omega) (by omega)
  · simp only [hnot, if_false]
    split
    · next v hv => exact absurd (by rw [hv]; rfl) hnot
    · exact (parseGoalAtom_agrees hq.inRange).wrap _ hpq (by omega)

theorem parseBody_agrees (hp : p ≤ input.length) {f : Nat} (hf : input.length < p + f) :
    Agrees 1 (parseBody F) (Transpile.parseBody F f) input p := by
  refine returns_loop (fun goals q => p ≤ q ∧ ∃ g, input.length < q + g ∧
    Transpile.parseBody F f (input.drop p) =
      (Transpile.parseBody F g (input.drop q)).map (goals ++ ·)) hp
    ⟨Nat.le_refl p, f, hf, ?_⟩ fun goals q hq hround => ?_
  · cases Transpile.parseBody F f (input.drop p) <;> rfl
  obtain ⟨hle, g, hg, hinv⟩ := hround
  obtain ⟨g, rfl⟩ : ∃ g', g = g' + 1 := Nat.exists_eq_succ_of_ne_zero (by omega)
  rw [hinv, Transpile.parseBody, returns_bind]
  refine (returns_skipWsAndComments hq).mono (fun _ r hblank => ?_) fun _ _ h => h
  obtain ⟨hqr, hr, hskip⟩ := hblank
  rw [hskip, returns_bind]
  have hgoal := parseGoal_agrees (F := F) hr
  refine Returns.mono hgoal (fun t s hok => ?_) fun e s herr => ?_
  swap
  · obtain ⟨⟨e', he⟩, hrs, hs⟩ := herr
    rw [he]
    exact ⟨⟨e', rfl⟩, by omega, hs⟩
  obtain ⟨ht, hrs, hs⟩ := hok
  rw [ht, returns_bind]
  refine (returns_skipWs hs).mono (fun _ s' hs' => ?_) fun _ _ h => h
  have hss' := hs'.le
  simp only [Parsed.bind, returns_bind, returns_peek, returns_ite, skipsTo_skipWs hs']
  split
  · next hmore =>
    obtain ⟨b, v, hv, hb⟩ : ∃ b v, input.drop s' = b :: v ∧ (b = ',' ∨ b = ';') := by
      rw [← List.head?_drop] at hmore
      rcases hmore with h | h
      · obtain ⟨v, hv⟩ := List.head?_eq_some_iff.mp h
        exact ⟨',', v, hv, .inl rfl⟩
      · obtain ⟨v, hv⟩ := List.head?_eq_some_iff.mp h
        exact ⟨';', v, hv, .inr rfl⟩
    obtain ⟨-, hdrop, hlt⟩ := drop_eq_cons hv
    rw [returns_next_cons hv, hv]
    subst hdrop
    refine ⟨⟨by omega, g, by omega, ?_⟩, by omega, hlt⟩
    rcases hb with rfl | rfl <;> exact Parsed.map_cons _ _ _
  · next hlast =>
    split
    · next v hv => exact absurd (.inl (drop_eq_cons hv).1) hlast
    · next v hv => exact absurd (.inr (drop_eq_cons hv).1) hlast
    · exact ⟨rfl, by omega, hs'.inRange⟩

/-- A clause takes a byte at least, and one that does not parse is not met at the end. -/
theorem parseClause_returns (hp : p ≤ input.length) :
    Returns (parseClause F) input p
      (fun rule q => Transpile.parseClause F (input.drop p) = .ok rule (input.drop q) ∧
        (rule.isSome → p < q) ∧ p ≤ q ∧ q ≤ input.length)
      (fun _ q => (∃ e, Transpile.parseClause F (input.drop p) = .error e (input.drop q)) ∧
        p < input.length ∧ p ≤ q ∧ q ≤ input.length) := by
  unfold parseClause
  rw [returns_bind]
  refine (returns_skipWsAndComments hp).mono (fun _ q hblank => ?_) fun _ _ h => h
  obtain ⟨hpq, hq, hskip⟩ := hblank
  rw [returns_bind, returns_position, returns_bind, returns_length, Transpile.parseClause, hskip]
  by_cases hend : q < input.length
  swap
  · have hnil : input.drop q = [] := List.drop_eq_nil_of_le (by omega)
    rw [if_neg hend, hnil]
    exact ⟨by rw [hnil], by simp, hpq, hq⟩
  rw [if_pos hend, returns_bind]
  split
  · next hnil => exact absurd (List.drop_eq_nil_iff.mp hnil) (by omega)
  have hhead := ruleTerm_agrees (F := F) ruleParser hq
  refine Returns.mono hhead (fun head r hok => ?_) fun e r herr => ?_
  swap
  · obtain ⟨⟨e', he⟩, hqr, hrlen⟩ := herr
    rw [he]
    exact ⟨⟨e', rfl⟩, by omega, by omega, hrlen⟩
  obtain ⟨hr, hqr, hrlen⟩ := hok
  rw [hr, returns_bind]
  refine (returns_skipWs hrlen).mono (fun _ s hs => ?_) fun _ _ h => h
  have hrs := hs.le
  simp only [Parsed.bind, skipsTo_skipWs hs]
  rw [returns_bind]
  refine returns_peekTwo hs.inRange ?_
  by_cases hneck : firstTwo (input.drop s) = some (':', '-')
  · obtain ⟨v, hv⟩ := firstTwo_eq.mp hneck
    obtain ⟨-, hdrop, -⟩ := drop_eq_cons hv
    obtain ⟨-, hdrop', hlt⟩ := drop_eq_cons hdrop
    rw [if_pos hneck, hv]
    subst hdrop'
    rw [returns_bind]
    refine returns_skipN hv ?_
    rw [returns_bind]
    refine (returns_skipWs hlt).mono (fun _ t ht => ?_) fun _ _ h => h
    have hst := ht.le
    have hlen : input.length < t + ((input.drop t).length + 1) := by
      rw [List.length_drop]
      omega
    simp only [skipsTo_skipWs ht, ruleOf]
    rw [returns_bind]
    refine Returns.mono (parseBody_agrees (F := F) ht.inRange hlen) (fun body t' hok => ?_)
      fun e t' herr => ?_
    swap
    · obtain ⟨⟨e', he⟩, htt', ht'⟩ := herr
      rw [he]
      exact ⟨⟨e', rfl⟩, by omega, by omega, ht'⟩
    obtain ⟨hbody, htt', ht'⟩ := hok
    rw [hbody, returns_bind]
    refine (returns_skipWs ht').mono (fun _ t'' ht'' => ?_) fun _ _ h => h
    have htt'' := ht''.le
    simp only [Parsed.bind, skipsTo_skipWs ht'', returns_bind, returns_peek, returns_ite]
    split
    · next hstop =>
      obtain ⟨w, hw⟩ := List.head?_eq_some_iff.mp ((List.head?_drop).trans hstop)
      obtain ⟨-, hdrop'', hlt''⟩ := drop_eq_cons hw
      rw [returns_next_cons hw, hw]
      exact ⟨by rw [hdrop'']; rfl, fun _ => by omega, by omega, hlt''⟩
    · next hstop =>
      split
      · next w hw => exact absurd (drop_eq_cons hw).1 hstop
      · exact ⟨rfl, fun _ => by omega, by omega, ht''.inRange⟩
  · rw [if_neg hneck]
    simp only [returns_bind, returns_peek, returns_ite, returns_position]
    split
    · next hstop =>
      obtain ⟨w, hw⟩ := List.head?_eq_some_iff.mp ((List.head?_drop).trans hstop)
      obtain ⟨-, hdrop, hlt⟩ := drop_eq_cons hw
      rw [returns_next_cons hw, hw]
      exact ⟨by rw [hdrop]; rfl, fun _ => by omega, by omega, hlt⟩
    · next hstop =>
      split
      · next w hw => exact absurd (by rw [hw]; rfl) hneck
      · next w hw => exact absurd (drop_eq_cons hw).1 hstop
      · exact ⟨⟨_, rfl⟩, by omega, by omega, hs.inRange⟩

theorem parsePrologRules_returns (hp : p ≤ input.length) {f : Nat} (hf : input.length < p + f) :
    Returns (parsePrologRules F) input p
      (fun rules q => rules = rulesLoop F f (input.drop p) ∧ p ≤ q ∧ q ≤ input.length)
      (fun _ _ => False) := by
  refine returns_loop (fun rules q => p ≤ q ∧ ∃ g, input.length < q + g ∧
    rulesLoop F f (input.drop p) = rules ++ rulesLoop F g (input.drop q)) hp
    ⟨Nat.le_refl p, f, hf, rfl⟩ fun rules q hq hround => ?_
  obtain ⟨hle, g, hg, hinv⟩ := hround
  obtain ⟨g, rfl⟩ : ∃ g', g = g' + 1 := Nat.exists_eq_succ_of_ne_zero (by omega)
  rw [hinv, rulesLoop, returns_bind, returns_attempt]
  refine (parseClause_returns (F := F) hq).mono (fun rule r hok => ?_) fun e r herr => ?_
  · obtain ⟨hr, hmove, hqr, hrlen⟩ := hok
    rw [hr]
    cases rule with
    | none => exact ⟨by simp, by omega, hrlen⟩
    | some rule =>
      have hlt := hmove rfl
      exact ⟨⟨by omega, g, by omega, by simp⟩, hlt, hrlen⟩
  · obtain ⟨⟨e', he⟩, hend, hqr, hrlen⟩ := herr
    rw [he]
    simp only [returns_bind]
    refine (returns_skipToPeriod hrlen).mono (fun _ s hskipped => ?_) fun _ _ h => h
    obtain ⟨hmove, hrs, hs, hskip⟩ := hskipped
    -- what is left behind the error, or the error itself, was moved over
    have hqs : q < s := by
      by_cases hrq : r < input.length
      · have := hmove hrq
        omega
      · omega
    exact ⟨⟨by omega, g, by omega, by rw [hskip]⟩, hqs, hs⟩

/-! ### Whole runs -/

/-- The run from the beginning of the input ends within the input, with the value that the parser
on texts reads and has left the same for, or with an error where that one has an error. A fault is
neither. -/
def Terminates (m : Scan α) (r : Text → Parsed α) (input : Text) : Prop :=
  ∃ q ≤ input.length, (∃ a, m input 0 = .ok a q ∧ r input = .ok a (input.drop q)) ∨
    ∃ e e', m input 0 = .error e q ∧ r input = .error e' (input.drop q)

theorem Agrees.terminates {k : Nat} {m : Scan α} {r : Text → Parsed α}
    (h : Agrees k m r input 0) : Terminates m r input := by
  unfold Agrees Reads Returns at h
  rw [List.drop_zero] at h
  cases hm : m input 0 with
  | ok a q =>
    rw [hm] at h
    exact ⟨q, h.2.2, .inl ⟨a, hm, h.1⟩⟩
  | error e q =>
    rw [hm] at h
    obtain ⟨e', he⟩ := h.1
    exact ⟨q, h.2.2, .inr ⟨e, e', hm, he⟩⟩
  | fault f =>
    rw [hm] at h
    exact h.elim

/-- No parser faults: every index and slice is in range, every round of every loop and every call
of `parse_term` within itself begins behind the one before, and there are never more of them than
the input has positions. -/
theorem scanners_terminate (F : FloatText φ) (bytes : Text) :
    Terminates (parseTerm F prologParser) (Transpile.parseTerm F (bytes.length + 1)) bytes ∧
      Terminates (parseFact F) (Transpile.parseFact F) bytes ∧
      ∃ q ≤ bytes.length,
        parsePrologRules F bytes 0 = .ok (rulesLoop F (bytes.length + 2) bytes) q := by
  refine ⟨(parseTerm_agrees prologParser (Nat.zero_le _) (by omega)).terminates,
    (parseFact_agrees (Nat.zero_le _)).terminates, ?_⟩
  have h := parsePrologRules_returns (F := F) (f := bytes.length + 2) (Nat.zero_le bytes.length)
    (by omega)
  unfold Returns at h
  cases hm : parsePrologRules F bytes 0 with
  | ok rules q =>
    rw [hm] at h
    obtain ⟨hrules, -, hq⟩ := h
    exact ⟨q, hq, by rw [hrules, List.drop_zero]⟩
  | error e q =>
    rw [hm] at h
    exact h.elim
  | fault f =>
    rw [hm] at h
    exact h.elim

end Terms

end Cerebellum.Scanner
