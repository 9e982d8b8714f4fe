import Mathlib

/-! Texts that are put together from fixed code and from strings spliced into comments and
between quotes, and what a reader of the target language makes of them. A reader that never
turns fewer characters into more reads such a text as it was meant exactly when no spliced
string breaks out of its place. -/
namespace Template
variable {α : Type*} [DecidableEq α]

inductive Lexeme (α : Type*) where
  | code (a : α)
  | comment (s : List α)
  /-- A text between quotes, with the value it stands for. -/
  | quoted (q : α) (value : List α)
  /-- A lexeme of no template. -/
  | other (raw : List α)
  deriving DecidableEq

namespace Lexeme

/-- The fewest characters a lexeme can be written in: a quote within quotes takes two. -/
def cost : Lexeme α → Nat
  | .code _ => 1
  | .comment s => s.length + 1
  | .quoted q v => v.length + v.count q + 2
  | .other raw => raw.length

/-- What has been read, backwards, with a lexeme behind it. -/
def after (before : List α) : Lexeme α → List α
  | .code a => a :: before
  | .comment _ | .quoted _ _ => []
  | .other raw => raw.reverse ++ before

def Clean (ends : α → Prop) (esc : α) : Lexeme α → Prop
  | .comment s => ∀ a ∈ s, ¬ ends a
  | .quoted _ v => esc ∉ v
  | .code _ | .other _ => True

end Lexeme

/-- Escape the quotes of a text, and nothing else. -/
def escape (esc q : α) (v : List α) : List α := v.flatMap fun a => if a = q then [esc, q] else [a]

theorem escape_of_not_mem {esc q : α} {v : List α} (h : q ∉ v) : escape esc q v = v := by
  induction v with
  | nil => rfl
  | cons a v ih =>
    have hne : a ≠ q := fun ha => h (by simp [ha])
    have hv : q ∉ v := fun hv => h (List.mem_cons_of_mem _ hv)
    simpa [escape, hne] using ih hv

theorem length_escape (esc q : α) (v : List α) :
    (escape esc q v).length = v.length + v.count q := by
  induction v with
  | nil => rfl
  | cons a v ih =>
    simp only [escape, List.flatMap_cons, List.length_append, List.length_cons,
      List.count_cons] at ih ⊢
    rw [ih]
    by_cases ha : a = q
    · simp only [ha, if_true, beq_self_eq_true, List.length_cons, List.length_nil]
      omega
    · simp only [ha, if_false, beq_iff_eq, List.length_cons, List.length_nil]
      omega

/-- The lexical rules of a language. `next` takes one lexeme off the front of a text; it may
look at what stands before. -/
structure Lexis (α : Type*) [DecidableEq α] where
  next : List α → List α → Option (Lexeme α × List α)
  /-- Opens a comment. -/
  mark : α
  /-- Ends the comments that a template writes. -/
  eol : α
  esc : α
  /-- The characters that end a comment. -/
  ends : α → Prop
  isCode : α → Prop
  isQuote : α → Prop
  /-- Behind these a quote opens a quoted text. -/
  opens : α → Prop
  eol_code : isCode eol
  opens_eol : opens eol
  cost_le : ∀ {before t l rest}, next before t = some (l, rest) → l.cost + rest.length ≤ t.length
  clean_of_le : ∀ {before t l rest}, next before t = some (l, rest) →
    t.length ≤ l.cost + rest.length → l.Clean ends esc
  next_code : ∀ {before a t}, isCode a → next before (a :: t) = some (.code a, t)
  next_comment : ∀ {before s t}, (∀ a ∈ s, ¬ ends a) →
    next before (mark :: (s ++ eol :: t)) = some (.comment s, eol :: t)
  next_quoted : ∀ {before q v t}, isQuote q → (∀ a ∈ before.head?, opens a) → esc ∉ v →
    t.head? ≠ some q → next before (q :: (escape esc q v ++ q :: t)) = some (.quoted q v, t)

namespace Lexis
variable (L : Lexis α)

def read : Nat → List α → List α → Option (List (Lexeme α))
  | _, _, [] => some []
  | 0, _, _ :: _ => none
  | n + 1, before, a :: t =>
    match L.next before (a :: t) with
    | some (l, rest) => (read n (l.after before) rest).map fun ls => l :: ls
    | none => none

/-- The lexemes of a whole text. -/
def scan (t : List α) : Option (List (Lexeme α)) := L.read t.length [] t

def cost (ls : List (Lexeme α)) : Nat := (ls.map Lexeme.cost).sum

/-- No reading takes fewer characters than its lexemes cost, and one that takes no more has
only clean lexemes. -/
theorem cost_le_of_read {n : Nat} {before t : List α} {ls : List (Lexeme α)}
    (h : L.read n before t = some ls) : cost ls ≤ t.length ∧
      (t.length ≤ cost ls → ∀ l ∈ ls, l.Clean L.ends L.esc) := by
  induction n generalizing before t ls with
  | zero =>
    cases t with
    | nil =>
      cases h
      simp [cost]
    | cons a t => cases h
  | succ n ih =>
    cases t with
    | nil =>
      cases h
      simp [cost]
    | cons a t =>
      rw [read] at h
      cases hnext : L.next before (a :: t) with
      | none => simp [hnext] at h
      | some p =>
        obtain ⟨l, rest⟩ := p
        simp only [hnext, Option.map_eq_some_iff] at h
        obtain ⟨ls, hread, rfl⟩ := h
        obtain ⟨hle, hclean⟩ := ih hread
        have hl := L.cost_le hnext
        simp only [cost, List.map_cons, List.sum_cons] at hle hclean ⊢
        refine ⟨by omega, fun hall => ?_⟩
        intro x hx
        rcases List.mem_cons.mp hx with rfl | hx
        · exact L.clean_of_le hnext (by omega)
        · exact hclean (by omega) x hx

/-- Enough fuel reads the text as these lexemes. -/
def Reads (before t : List α) (ls : List (Lexeme α)) : Prop :=
  ∀ n, t.length ≤ n → L.read n before t = some ls

variable {L}

theorem Reads.nil (before : List α) : L.Reads before [] [] := by
  intro n _
  cases n <;> rfl

theorem Reads.step {before t rest : List α} {a : α} {l : Lexeme α} {ls : List (Lexeme α)}
    (hnext : L.next before (a :: t) = some (l, rest)) (hlen : rest.length ≤ t.length)
    (h : L.Reads (l.after before) rest ls) : L.Reads before (a :: t) (l :: ls) := by
  intro n hn
  obtain ⟨n, rfl⟩ : ∃ m, n = m + 1 := ⟨n - 1, by simp at hn; omega⟩
  have hrest := h n (by simp at hn; omega)
  simp [read, hnext, hrest]

theorem Reads.code {before s t : List α} {ls : List (Lexeme α)} (hs : ∀ a ∈ s, L.isCode a)
    (h : L.Reads (s.reverse ++ before) t ls) :
    L.Reads before (s ++ t) (s.map Lexeme.code ++ ls) := by
  induction s generalizing before with
  | nil => exact h
  | cons a s ih =>
    refine Reads.step (L.next_code (hs a (by simp))) (by simp) ?_
    refine ih (fun b hb => hs b (List.mem_cons_of_mem _ hb)) ?_
    simpa [Lexeme.after] using h

end Lexis

/-- A piece of a template. -/
inductive Chunk (α : Type*) where
  | code (s : List α)
  /-- A comment up to the end of its line. -/
  | comment (s : List α)
  /-- A text put between quotes as it is. -/
  | bare (q : α) (v : List α)
  /-- A text put between quotes with its quotes escaped. -/
  | escaped (q : α) (v : List α)

namespace Chunk
variable (L : Lexis α)

def render : Chunk α → List α
  | .code s => s
  | .comment s => L.mark :: (s ++ [L.eol])
  | .bare q v => q :: (v ++ [q])
  | .escaped q v => q :: (escape L.esc q v ++ [q])

/-- What the piece is meant to be read as. -/
def lexemes : Chunk α → List (Lexeme α)
  | .code s => s.map .code
  | .comment s => [.comment s, .code L.eol]
  | .bare q v | .escaped q v => [.quoted q v]

/-- The spliced string stays in its place. -/
def Clean : Chunk α → Prop
  | .code _ => True
  | .comment s => ∀ a ∈ s, ¬ L.ends a
  | .bare q v => L.esc ∉ v ∧ q ∉ v
  | .escaped _ v => L.esc ∉ v

/-- The quotes that a piece leaves as they are. -/
def slack : Chunk α → Nat
  | .bare q v => v.count q
  | .code _ | .comment _ | .escaped _ _ => 0

/-- A piece is written in as many characters as its lexemes cost, but for the quotes that it
does not escape. -/
theorem length_render (c : Chunk α) :
    (c.render L).length + c.slack = Lexis.cost (c.lexemes L) := by
  cases c with
  | code s =>
    induction s with
    | nil => rfl
    | cons a s ih =>
      simp only [render, slack, lexemes, Lexis.cost, List.map_cons, List.sum_cons, Lexeme.cost,
        List.length_cons] at ih ⊢
      omega
  | comment s => simp [render, slack, lexemes, Lexis.cost, Lexeme.cost]
  | bare q v =>
    simp only [render, slack, lexemes, Lexis.cost, Lexeme.cost, List.length_cons,
      List.length_append, List.map_cons, List.map_nil, List.sum_cons, List.sum_nil, List.length_nil]
    omega
  | escaped q v => simp [render, slack, lexemes, Lexis.cost, Lexeme.cost, length_escape]

/-- A piece whose lexemes are clean, and which leaves no quote unescaped, is clean. -/
theorem clean_of_lexemes {c : Chunk α} (hslack : c.slack = 0)
    (h : ∀ l ∈ c.lexemes L, l.Clean L.ends L.esc) : c.Clean L := by
  cases c with
  | code s => trivial
  | comment s => exact h (.comment s) (by simp [lexemes])
  | bare q v => exact ⟨h (.quoted q v) (by simp [lexemes]), List.count_eq_zero.mp hslack⟩
  | escaped q v => exact h (.quoted q v) (by simp [lexemes])

end Chunk

namespace Lexis
variable (L : Lexis α)

def render (cs : List (Chunk α)) : List α := cs.flatMap (Chunk.render L)

def lexemes (cs : List (Chunk α)) : List (Lexeme α) := cs.flatMap (Chunk.lexemes L)

/-- The text is read as its template means it. -/
def Means (cs : List (Chunk α)) : Prop := L.scan (L.render cs) = some (L.lexemes cs)

/-- What the pieces of a template keep to, whatever is spliced in: code is code, and a quoted
text stands behind a character that lets it open and before code that does not go on with
its quote. The first argument is the character before. -/
def Fits : Option α → List (Chunk α) → Prop
  | _, [] => True
  | before, .code s :: cs => (∀ a ∈ s, L.isCode a) ∧ Fits (s.getLast?.or before) cs
  | _, .comment _ :: cs => Fits (some L.eol) cs
  | before, .bare q _ :: cs | before, .escaped q _ :: cs =>
    L.isQuote q ∧ (∀ a ∈ before, L.opens a) ∧
      (∃ a s cs', cs = .code (a :: s) :: cs' ∧ a ≠ q) ∧ Fits none cs

variable {L}

/-- Templates that fit anywhere can be put one behind the other. -/
theorem Fits.append {before : Option α} {cs ds : List (Chunk α)} (hc : L.Fits before cs)
    (hd : ∀ b, L.Fits b ds) : L.Fits before (cs ++ ds) := by
  induction cs generalizing before with
  | nil => exact hd before
  | cons c cs ih =>
    cases c with
    | code s => exact ⟨hc.1, ih hc.2⟩
    | comment s => exact ih hc
    | bare q v | escaped q v =>
      obtain ⟨hq, hb, ⟨a, s, cs', rfl, ha⟩, hfits⟩ := hc
      exact ⟨hq, hb, ⟨a, s, cs' ++ ds, rfl, ha⟩, ih hfits⟩

theorem Fits.flatMap {β : Type*} {f : β → List (Chunk α)} {l : List β}
    (h : ∀ x ∈ l, ∀ b, L.Fits b (f x)) (b : Option α) : L.Fits b (l.flatMap f) := by
  induction l generalizing b with
  | nil => trivial
  | cons x l ih =>
    exact (h x (by simp) b).append fun b => ih (fun y hy => h y (List.mem_cons_of_mem _ hy)) b

theorem Fits.code {before : Option α} {s : List α} {cs : List (Chunk α)}
    (hs : ∀ a ∈ s, L.isCode a) (h : ∀ b, L.Fits b cs) : L.Fits before (.code s :: cs) :=
  ⟨hs, h _⟩

/-- Code, a text between quotes, and code again. -/
theorem Fits.splice {before : Option α} {s t v : List α} {q a last : α} {cs : List (Chunk α)}
    (hs : ∀ a ∈ s, L.isCode a) (hlast : s.getLast? = some last) (hopens : L.opens last)
    (hq : L.isQuote q) (ht : t.head? = some a) (ha : a ≠ q) (h : L.Fits none (.code t :: cs)) :
    L.Fits before (.code s :: .bare q v :: .code t :: cs) ∧
      L.Fits before (.code s :: .escaped q v :: .code t :: cs) := by
  have hbefore : ∀ b ∈ s.getLast?.or before, L.opens b := by
    rw [hlast]
    rintro b ⟨⟩
    exact hopens
  have hcode : ∃ b s' cs', Chunk.code t :: cs = .code (b :: s') :: cs' ∧ b ≠ q :=
    ⟨a, t.tail, cs, by rw [List.cons_head?_tail ht], ha⟩
  exact ⟨⟨hs, hq, hbefore, hcode, h⟩, ⟨hs, hq, hbefore, hcode, h⟩⟩

theorem next_bare {before q v t} (hq : L.isQuote q) (hb : ∀ a ∈ before.head?, L.opens a)
    (hesc : L.esc ∉ v) (hv : q ∉ v) (ht : t.head? ≠ some q) :
    L.next before (q :: (v ++ q :: t)) = some (.quoted q v, t) := by
  have h := L.next_quoted hq hb hesc ht
  rwa [escape_of_not_mem hv] at h

/-- A clean template is read as it is meant. -/
theorem reads_render {before : List α} {cs : List (Chunk α)} (hf : L.Fits before.head? cs)
    (hc : ∀ c ∈ cs, c.Clean L) : L.Reads before (L.render cs) (L.lexemes cs) := by
  induction cs generalizing before with
  | nil => exact Reads.nil before
  | cons c cs ih =>
    have hrest := fun c hc' => hc c (List.mem_cons_of_mem _ hc')
    have hclean := hc c (by simp)
    -- the text behind a quoted piece goes on with code that is not its quote
    have hhead : ∀ {q : α}, (∃ a s cs', cs = .code (a :: s) :: cs' ∧ a ≠ q) →
        (L.render cs).head? ≠ some q := by
      rintro q ⟨a, s, cs', rfl, ha⟩
      simpa [render, Chunk.render] using ha
    simp only [render, lexemes, List.flatMap_cons]
    cases c with
    | code s =>
      refine Reads.code hf.1 (ih ?_ hrest)
      rw [List.head?_append, List.head?_reverse]
      exact hf.2
    | comment s =>
      simp only [Chunk.render, Chunk.lexemes, List.cons_append, List.append_assoc, List.nil_append]
      refine Reads.step (L.next_comment hclean) (by simp) ?_
      exact Reads.step (L.next_code L.eol_code) (Nat.le_refl _) (ih hf hrest)
    | bare q v =>
      obtain ⟨hq, hb, hcode, hfits⟩ := hf
      simp only [Chunk.render, Chunk.lexemes, List.cons_append, List.append_assoc, List.nil_append]
      refine Reads.step (next_bare hq hb hclean.1 hclean.2 (hhead hcode)) ?_ (ih hfits hrest)
      simp
      omega
    | escaped q v =>
      obtain ⟨hq, hb, hcode, hfits⟩ := hf
      simp only [Chunk.render, Chunk.lexemes, List.cons_append, List.append_assoc, List.nil_append]
      refine Reads.step (L.next_quoted hq hb hclean (hhead hcode)) ?_ (ih hfits hrest)
      simp
      omega

theorem length_render (cs : List (Chunk α)) :
    (L.render cs).length + (cs.map Chunk.slack).sum = cost (L.lexemes cs) := by
  induction cs with
  | nil => rfl
  | cons c cs ih =>
    have hc := c.length_render L
    simp only [render, lexemes, cost, List.flatMap_cons, List.length_append, List.map_cons,
      List.sum_cons, List.map_append, List.sum_append] at ih hc ⊢
    omega

/-- A template is read as it is meant exactly when every spliced string stays in its place. -/
theorem means_iff {cs : List (Chunk α)} (hf : L.Fits none cs) :
    L.Means cs ↔ ∀ c ∈ cs, c.Clean L := by
  constructor
  · intro h c hc
    obtain ⟨hle, hclean⟩ := cost_le_of_read L h
    have hlen := length_render (L := L) cs
    have hslack : c.slack ≤ (cs.map Chunk.slack).sum :=
      List.single_le_sum (by simp) _ (List.mem_map_of_mem hc)
    refine Chunk.clean_of_lexemes L (by omega) fun l hl => hclean (by omega) l ?_
    exact List.mem_flatMap.mpr ⟨c, hc, hl⟩
  · intro h
    have hreads : L.Reads [] (L.render cs) (L.lexemes cs) := reads_render hf h
    exact hreads _ (Nat.le_refl _)

end Lexis
end Template
