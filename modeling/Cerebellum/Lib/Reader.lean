import Mathlib.Data.List.TakeWhile

/-! Hand-written parsers: methods that move a position over an input they never change. A run
that indexes or slices out of range, that goes round a loop or down a recursion without having
moved on, or that has no round left, is a fault, so that a run that returns has done none of
this. -/
namespace Reader

inductive Fault where
  | outOfRange
  | standsStill
  | outOfRounds
  deriving DecidableEq

/-- What a method leaves, and the position it leaves it at. -/
inductive Outcome (ε α : Type) where
  | ok (a : α) (pos : Nat)
  | error (e : ε) (pos : Nat)
  | fault (f : Fault)
  deriving DecidableEq

/-- A method, on an input and from a position. -/
def Method (τ ε α : Type) := List τ → Nat → Outcome ε α

variable {τ ε α β σ : Type}

instance : Monad (Method τ ε) where
  pure a := fun _ p => .ok a p
  bind m f := fun input p =>
    match m input p with
    | .ok a q => f a input q
    | .error e q => .error e q
    | .fault f => .fault f

def fail (e : ε) : Method τ ε α := fun _ p => .error e p

/-- A result that is looked at, and not passed on with `?`. -/
def attempt (m : Method τ ε α) : Method τ ε (Except ε α) := fun input p =>
  match m input p with
  | .ok a q => .ok (.ok a) q
  | .error e q => .ok (.error e) q
  | .fault f => .fault f

def position : Method τ ε Nat := fun _ p => .ok p p

def length : Method τ ε Nat := fun input p => .ok input.length p

/-- `input.get(pos)`. -/
def peek : Method τ ε (Option τ) := fun input p => .ok input[p]? p

def next : Method τ ε (Option τ) := fun input p =>
  match input[p]? with
  | some b => .ok (some b) (p + 1)
  | none => .ok none p

/-- `input[i]`. -/
def index (i : Nat) : Method τ ε τ := fun input p =>
  match input[i]? with
  | some b => .ok b p
  | none => .fault .outOfRange

def part (input : List τ) (p q : Nat) : List τ := (input.drop p).take (q - p)

/-- `&input[start..pos]`. -/
def slice (start : Nat) : Method τ ε (List τ) := fun input p =>
  if start ≤ p ∧ p ≤ input.length then .ok (part input start p) p else .fault .outOfRange

/-- `pos = q`. A position behind the end is one out of range. -/
def moveTo (q : Nat) : Method τ ε Unit := fun input _ =>
  if q ≤ input.length then .ok () q else .fault .outOfRange

/-- The rounds of a loop: a body asks for another one, or breaks. -/
def rounds (body : σ → Method τ ε (σ ⊕ α)) : Nat → σ → Method τ ε α
  | 0, _ => fun _ _ => .fault .outOfRounds
  | n + 1, s => fun input p =>
    match body s input p with
    | .ok (.inl s) q => if p < q then rounds body n s input q else .fault .standsStill
    | .ok (.inr a) q => .ok a q
    | .error e q => .error e q
    | .fault f => .fault f

/-- A loop has a round for every position of the input and for its end, and no more. -/
def loop (s : σ) (body : σ → Method τ ε (σ ⊕ α)) : Method τ ε α := fun input p =>
  rounds body (input.length + 1) s input p

/-- A recursive call, made by a call that began at `start`. -/
def beyond (start : Nat) (call : Method τ ε α) : Method τ ε α := fun input p =>
  if start < p then call input p else .fault .standsStill

/-- `while pos < input.len() && test(input[pos]) { pos += 1 }`. -/
def skipIndexed (test : τ → Bool) : Method τ ε Unit :=
  loop () fun _ => do
    let p ← position
    if p < (← length) then
      if test (← index p) then
        moveTo (p + 1)
        return .inl ()
    return .inr ()

/-- `while peek().map_or(false, test) { next() }`. -/
def skipPeeked (test : τ → Bool) : Method τ ε Unit :=
  loop () fun _ => do
    if (← peek).any test then
      let _ ← next
      return .inl ()
    return .inr ()

/-! ### What a run returns -/

/-- The run from `p` returns: what it returns and where it stops is as `Q` says, or it is an
error as `E` says. -/
def Returns (m : Method τ ε α) (input : List τ) (p : Nat) (Q : α → Nat → Prop)
    (E : ε → Nat → Prop) : Prop :=
  match m input p with
  | .ok a q => Q a q
  | .error e q => E e q
  | .fault _ => False

section Rules
variable {input : List τ} {p : Nat} {Q : α → Nat → Prop} {E : ε → Nat → Prop}

theorem Returns.mono {m : Method τ ε α} {Q' : α → Nat → Prop} {E' : ε → Nat → Prop}
    (h : Returns m input p Q E) (hQ : ∀ a q, Q a q → Q' a q) (hE : ∀ e q, E e q → E' e q) :
    Returns m input p Q' E' := by
  unfold Returns at h ⊢
  cases hm : m input p with
  | ok a q =>
    rw [hm] at h
    exact hQ a q h
  | error e q =>
    rw [hm] at h
    exact hE e q h
  | fault f =>
    rw [hm] at h
    exact h

@[simp] theorem returns_pure (a : α) :
    Returns (pure a : Method τ ε α) input p Q E ↔ Q a p := Iff.rfl

@[simp] theorem returns_fail (e : ε) :
    Returns (fail e : Method τ ε α) input p Q E ↔ E e p := Iff.rfl

@[simp] theorem returns_bind (m : Method τ ε β) (f : β → Method τ ε α) :
    Returns (m >>= f) input p Q E ↔
      Returns m input p (fun b q => Returns (f b) input q Q E) E := by
  show (match (match m input p with
    | .ok a q => f a input q
    | .error e q => .error e q
    | .fault f => .fault f) with
    | .ok a q => Q a q
    | .error e q => E e q
    | .fault _ => False) ↔ _
  unfold Returns
  cases m input p <;> rfl

@[simp] theorem returns_map (f : β → α) (m : Method τ ε β) :
    Returns (f <$> m) input p Q E ↔ Returns m input p (fun b q => Q (f b) q) E := by
  show Returns (m >>= pure ∘ f) input p Q E ↔ _
  rw [returns_bind]
  rfl

@[simp] theorem returns_ite (c : Prop) [Decidable c] (m m' : Method τ ε α) :
    Returns (if c then m else m') input p Q E ↔
      if c then Returns m input p Q E else Returns m' input p Q E := by
  split <;> rfl

@[simp] theorem returns_attempt (m : Method τ ε α) {Q : Except ε α → Nat → Prop} :
    Returns (attempt m) input p Q E ↔
      Returns m input p (fun a q => Q (.ok a) q) (fun e q => Q (.error e) q) := by
  unfold Returns attempt
  cases m input p <;> rfl

@[simp] theorem returns_position {Q : Nat → Nat → Prop} :
    Returns (position : Method τ ε Nat) input p Q E ↔ Q p p := Iff.rfl

@[simp] theorem returns_length {Q : Nat → Nat → Prop} :
    Returns (length : Method τ ε Nat) input p Q E ↔ Q input.length p := Iff.rfl

@[simp] theorem returns_peek {Q : Option τ → Nat → Prop} :
    Returns (peek : Method τ ε (Option τ)) input p Q E ↔ Q input[p]? p := Iff.rfl

theorem returns_next {Q : Option τ → Nat → Prop} :
    Returns (next : Method τ ε (Option τ)) input p Q E ↔
      Q input[p]? (if input[p]?.isSome then p + 1 else p) := by
  unfold Returns next
  cases input[p]? <;> simp

theorem returns_index {i : Nat} {Q : τ → Nat → Prop} (hi : i < input.length)
    (h : Q input[i] p) : Returns (index i : Method τ ε τ) input p Q E := by
  unfold Returns index
  simpa [hi] using h

theorem returns_slice {start : Nat} {Q : List τ → Nat → Prop} (hs : start ≤ p)
    (hp : p ≤ input.length) (h : Q (part input start p) p) :
    Returns (slice start : Method τ ε (List τ)) input p Q E := by
  unfold Returns slice
  rw [if_pos ⟨hs, hp⟩]
  exact h

theorem returns_moveTo {q : Nat} {Q : Unit → Nat → Prop} (hq : q ≤ input.length) (h : Q () q) :
    Returns (moveTo q : Method τ ε Unit) input p Q E := by
  unfold Returns moveTo
  rw [if_pos hq]
  exact h

theorem returns_beyond {start : Nat} {m : Method τ ε α} (hs : start < p)
    (h : Returns m input p Q E) : Returns (beyond start m) input p Q E := by
  unfold Returns beyond
  rw [if_pos hs]
  exact h

/-- The rule of a loop: its body keeps the invariant and moves on when it asks for another
round. -/
theorem returns_rounds {body : σ → Method τ ε (σ ⊕ α)} (inv : σ → Nat → Prop)
    (hbody : ∀ s p, p ≤ input.length → inv s p → Returns (body s) input p
      (fun r q => match r with
        | .inl s => inv s q ∧ p < q ∧ q ≤ input.length
        | .inr a => Q a q) E) (n : Nat) {s : σ} {p : Nat} (hp : p ≤ input.length)
    (hn : input.length < p + n) (h : inv s p) : Returns (rounds body n s) input p Q E := by
  induction n generalizing s p with
  | zero => omega
  | succ n ih =>
    have hb := hbody s p hp h
    unfold Returns at hb
    cases hm : body s input p with
    | ok r q =>
      rw [hm] at hb
      cases r with
      | inl s' =>
        obtain ⟨hinv, hpq, hq⟩ := hb
        simp only [Returns, rounds, hm, if_pos hpq]
        exact ih hq (by omega) hinv
      | inr a =>
        simp only [Returns, rounds, hm]
        exact hb
    | error e q =>
      rw [hm] at hb
      simp only [Returns, rounds, hm]
      exact hb
    | fault f =>
      rw [hm] at hb
      exact hb.elim

theorem returns_loop {s : σ} {body : σ → Method τ ε (σ ⊕ α)} (inv : σ → Nat → Prop)
    (hp : p ≤ input.length) (h : inv s p)
    (hbody : ∀ s p, p ≤ input.length → inv s p → Returns (body s) input p
      (fun r q => match r with
        | .inl s => inv s q ∧ p < q ∧ q ≤ input.length
        | .inr a => Q a q) E) : Returns (loop s body) input p Q E :=
  returns_rounds inv hbody _ hp (by omega) h

end Rules

/-! ### What is left of the input -/

section Left
variable {input : List τ} {p : Nat}

theorem drop_eq_cons {b : τ} {u : List τ} (h : input.drop p = b :: u) :
    input[p]? = some b ∧ input.drop (p + 1) = u ∧ p + 1 ≤ input.length := by
  have hp : p < input.length := by
    by_contra hge
    rw [List.drop_eq_nil_of_le (by omega)] at h
    exact absurd h (List.cons_ne_nil b u).symm
  rw [List.drop_eq_getElem_cons hp] at h
  obtain ⟨hb, hu⟩ := List.cons.inj h
  exact ⟨by rw [List.getElem?_eq_getElem hp, hb], hu, hp⟩

theorem drop_eq_nil (h : input.drop p = []) (hp : p ≤ input.length) :
    input[p]? = none ∧ p = input.length := by
  have hlen := List.drop_eq_nil_iff.mp h
  exact ⟨List.getElem?_eq_none hlen, by omega⟩

variable {Q : Option τ → Nat → Prop} {E : ε → Nat → Prop}

theorem returns_peek_cons {b : τ} {u : List τ} (h : input.drop p = b :: u) :
    Returns (peek : Method τ ε (Option τ)) input p Q E ↔ Q (some b) p := by
  rw [returns_peek, (drop_eq_cons h).1]

theorem returns_peek_nil (h : input.drop p = []) (hp : p ≤ input.length) :
    Returns (peek : Method τ ε (Option τ)) input p Q E ↔ Q none p := by
  rw [returns_peek, (drop_eq_nil h hp).1]

theorem returns_next_cons {b : τ} {u : List τ} (h : input.drop p = b :: u) :
    Returns (next : Method τ ε (Option τ)) input p Q E ↔ Q (some b) (p + 1) := by
  rw [returns_next, (drop_eq_cons h).1]
  rfl

theorem returns_next_nil (h : input.drop p = []) (hp : p ≤ input.length) :
    Returns (next : Method τ ε (Option τ)) input p Q E ↔ Q none p := by
  rw [returns_next, (drop_eq_nil h hp).1]
  rfl

theorem part_self : part input p p = [] := by simp [part]

theorem part_append {q r : Nat} (hpq : p ≤ q) (hqr : q ≤ r) :
    part input p r = part input p q ++ part input q r := by
  obtain ⟨k, rfl⟩ := Nat.exists_eq_add_of_le hpq
  obtain ⟨l, rfl⟩ := Nat.exists_eq_add_of_le hqr
  have hl : p + k + l - p = k + l := by omega
  simp [part, hl, List.take_add, List.drop_drop]

theorem part_cons {b : τ} {u : List τ} {q : Nat} (h : input.drop p = b :: u) (hpq : p < q) :
    part input p q = b :: part input (p + 1) q := by
  obtain ⟨-, hdrop, -⟩ := drop_eq_cons h
  obtain ⟨k, rfl⟩ := Nat.exists_eq_add_of_lt hpq
  have hk : p + k + 1 - p = k + 1 := by omega
  have hk' : p + k + 1 - (p + 1) = k := by omega
  rw [part, part, h, hdrop, hk, hk', List.take_succ_cons]

/-- Where a loop that skips stops, and what it skipped. -/
structure SkipsTo (test : τ → Bool) (input : List τ) (p q : Nat) : Prop where
  le : p ≤ q
  inRange : q ≤ input.length
  left : input.drop q = (input.drop p).dropWhile test
  taken : part input p q = (input.drop p).takeWhile test

theorem SkipsTo.refl {test : τ → Bool} (hp : p ≤ input.length)
    (h : ∀ b ∈ (input.drop p).head?, test b = false) : SkipsTo test input p p := by
  refine ⟨Nat.le_refl p, hp, ?_, ?_⟩
  · cases hu : input.drop p with
    | nil => rfl
    | cons b u => simp [h b (by simp [hu])]
  · rw [part_self]
    cases hu : input.drop p with
    | nil => rfl
    | cons b u => simp [h b (by simp [hu])]

theorem SkipsTo.step {test : τ → Bool} {b : τ} {u : List τ} {q : Nat}
    (hu : input.drop p = b :: u) (hb : test b) (h : SkipsTo test input (p + 1) q) :
    SkipsTo test input p q := by
  obtain ⟨-, hdrop, -⟩ := drop_eq_cons hu
  have hle := h.le
  have htaken := h.taken
  rw [hdrop] at htaken
  refine ⟨by omega, h.inRange, ?_, ?_⟩
  · rw [h.left, hdrop, hu, List.dropWhile_cons, if_pos hb]
  · rw [part_cons hu (by omega), htaken, hu, List.takeWhile_cons, if_pos hb]

theorem SkipsTo.lt {test : τ → Bool} {b : τ} {u : List τ} {q : Nat}
    (h : SkipsTo test input p q) (hu : input.drop p = b :: u) (hb : test b) : p < q := by
  rcases Nat.eq_or_lt_of_le h.le with rfl | hlt
  · have htaken := h.taken
    rw [part_self, hu, List.takeWhile_cons, if_pos hb] at htaken
    exact absurd htaken (List.cons_ne_nil _ _).symm
  · exact hlt

theorem returns_skipPeeked {test : τ → Bool} (hp : p ≤ input.length) :
    Returns (skipPeeked test : Method τ ε Unit) input p
      (fun _ q => SkipsTo test input p q) E := by
  refine returns_loop (fun _ q => ∀ r, SkipsTo test input q r → SkipsTo test input p r) hp
    (fun _ h => h) fun _ q hq hinv => ?_
  cases hu : input.drop q with
  | nil =>
    simp only [returns_bind, returns_peek_nil hu hq, Option.any_none, Bool.false_eq_true, if_false,
      returns_pure]
    exact hinv q (.refl hq (by simp [hu]))
  | cons b u =>
    obtain ⟨-, -, hlt⟩ := drop_eq_cons hu
    cases hb : test b with
    | true =>
      simp only [returns_bind, returns_peek_cons hu, Option.any_some, hb, if_true,
        returns_next_cons hu, returns_pure]
      exact ⟨fun r hr => hinv r (.step hu hb hr), by omega, hlt⟩
    | false =>
      simp only [returns_bind, returns_peek_cons hu, Option.any_some, hb, Bool.false_eq_true,
        if_false, returns_pure]
      exact hinv q (.refl hq (by simp [hu, hb]))

theorem returns_skipIndexed {test : τ → Bool} (hp : p ≤ input.length) :
    Returns (skipIndexed test : Method τ ε Unit) input p
      (fun _ q => SkipsTo test input p q) E := by
  refine returns_loop (fun _ q => ∀ r, SkipsTo test input q r → SkipsTo test input p r) hp
    (fun _ h => h) fun _ q hq hinv => ?_
  simp only [returns_bind, returns_position, returns_length, returns_ite]
  cases hu : input.drop q with
  | nil =>
    obtain ⟨-, hend⟩ := drop_eq_nil hu hq
    rw [if_neg (by omega)]
    exact hinv q (.refl hq (by simp [hu]))
  | cons b u =>
    obtain ⟨hsome, -, hlt⟩ := drop_eq_cons hu
    have hget : input[q] = b := by
      rw [List.getElem?_eq_getElem (by omega)] at hsome
      exact Option.some.inj hsome
    rw [if_pos (by omega)]
    refine returns_index (by omega) ?_
    rw [hget]
    cases hb : test b with
    | true =>
      simp only [if_true]
      refine returns_moveTo hlt ?_
      exact ⟨fun r hr => hinv r (.step hu hb hr), by omega, hlt⟩
    | false =>
      simp only [Bool.false_eq_true, if_false, returns_pure]
      exact hinv q (.refl hq (by simp [hu, hb]))

end Left

end Reader
