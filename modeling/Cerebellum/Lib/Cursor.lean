import Cerebellum.Lib.Transition

/-! An append-only log read through a cursor. Each read takes everything the cursor has not
passed yet, and keeps of it what passes a test made at that read. -/
namespace Cursor
open Transition
variable {α τ : Type*}

inductive Event (α τ : Type*) where
  | append (a : α)
  | read (t : τ)

/-- The log, and how far it has been read. -/
structure State (α : Type*) where
  log : List α
  pos : Nat

variable (keep : τ → Nat → α → Bool)

/-- What of `l`, which starts at position `n` of the log, passes the test of a read. -/
def kept (t : τ) : Nat → List α → List α
  | _, [] => []
  | n, a :: l => if keep t n a then a :: kept t (n + 1) l else kept t (n + 1) l

def step (s : State α) : Event α τ → State α
  | .append a => { s with log := s.log ++ [a] }
  | .read _ => { s with pos := s.log.length }

def batch (s : State α) : Event α τ → List α
  | .append _ => []
  | .read t => kept keep t s.pos (s.log.drop s.pos)

/-- All that the reads return, one after the other. -/
def batches : State α → List (Event α τ) → List α
  | _, [] => []
  | s, e :: es => batch keep s e ++ batches (step s e) es

def firstRead : List (Event α τ) → Option τ
  | [] => none
  | .append _ :: es => firstRead es
  | .read t :: _ => some t

/-- Every entry that is appended, in order, judged by the first read that follows it. An entry
that no read follows is not due. `n` is the length of the log. -/
def due : Nat → List (Event α τ) → List α
  | _, [] => []
  | n, .append a :: es => ((firstRead es).elim [] fun t => kept keep t n [a]) ++ due (n + 1) es
  | n, .read _ :: es => due n es

variable {keep}

theorem kept_append (t : τ) (n : Nat) (l m : List α) :
    kept keep t n (l ++ m) = kept keep t n l ++ kept keep t (n + l.length) m := by
  induction l generalizing n with
  | nil => rfl
  | cons a l ih =>
    have hlen : n + (a :: l).length = n + 1 + l.length := by
      simp only [List.length_cons]
      omega
    rw [List.cons_append, kept, kept, ih, hlen]
    split <;> simp

/-- The backlog is judged by the first read, and then every entry by the first read after it. -/
theorem batches_eq {s : State α} (h : s.pos ≤ s.log.length) (es : List (Event α τ)) :
    batches keep s es = ((firstRead es).elim [] fun t => kept keep t s.pos (s.log.drop s.pos)) ++
      due keep s.log.length es := by
  induction es generalizing s with
  | nil => simp [batches, firstRead, due]
  | cons e es ih =>
    cases e with
    | append a =>
      have hpos : (step s (.append a : Event α τ)).pos ≤
          (step s (.append a : Event α τ)).log.length := by
        simp only [step, List.length_append, List.length_singleton]
        omega
      rw [batches, ih hpos]
      simp only [batch, step, firstRead, due, List.nil_append, List.length_append,
        List.length_singleton, List.drop_append_of_le_length h]
      cases firstRead es with
      | none => simp
      | some t =>
        have hn : s.pos + (s.log.drop s.pos).length = s.log.length := by
          rw [List.length_drop]
          omega
        simp only [Option.elim_some, kept_append, hn, List.append_assoc]
    | read t =>
      have hpos : (step s (.read t : Event α τ)).pos ≤ (step s (.read t : Event α τ)).log.length :=
        Nat.le_refl _
      rw [batches, ih hpos]
      cases hfirst : firstRead es with
      | none => simp [batch, step, firstRead, due]
      | some t' => simp [batch, step, firstRead, due, kept]

/-- A reader that starts at the end of the log. -/
theorem batches_of_caught_up {s : State α} (h : s.pos = s.log.length) (es : List (Event α τ)) :
    batches keep s es = due keep s.log.length es := by
  rw [batches_eq (Nat.le_of_eq h), h, List.drop_length]
  cases firstRead es <;> simp [kept]

/-- A system that shows a log and a cursor, and moves them by some of its inputs: what it returns
along a run are the batches of those. -/
theorem flatMap_visits {σ ι : Type*} {next : σ → ι → σ} {view : σ → State α}
    {event : σ → ι → Option (Event α τ)} {out : σ → ι → List α} {P : σ → Prop}
    (hP : ∀ s i, P s → P (next s i))
    (hview : ∀ s i, P s → view (next s i) = (event s i).elim (view s) (step (view s)))
    (hout : ∀ s i, P s → out s i = (event s i).elim [] (batch keep (view s)))
    {s : σ} (hs : P s) (is : List ι) :
    (visits next s is).flatMap (fun x => out x.1 x.2) =
      batches keep (view s) ((visits next s is).filterMap fun x => event x.1 x.2) := by
  induction is generalizing s with
  | nil => rfl
  | cons i is ih =>
    simp only [visits, List.flatMap_cons, List.filterMap_cons]
    rw [ih (hP s i hs), hview s i hs, hout s i hs]
    cases event s i with
    | none => rfl
    | some e => rfl

end Cursor
