import Mathlib.Data.List.Infix
import Mathlib.Data.List.TakeWhile

/-! Parsing expression grammars with implicit white space and comments, silent rules and atomic
rules. A run leaves its whole derivation, from which the pairs that a program sees are taken. -/
namespace Peg

/-- How much of the input stands before, and what is left of it. -/
structure Pos where
  offset : Nat
  rest : List Char
  deriving DecidableEq

def Pos.advance (p : Pos) (n : Nat) : Pos := ⟨p.offset + n, p.rest.drop n⟩

inductive Kind where
  | normal
  | silent
  | atomic
  deriving DecidableEq

/-- `skip` and `more` are not written in a grammar: `skip` is the implicit white space and
comments, and `more e` is what a repetition does behind its first round. -/
inductive Expr (R : Type) where
  | str (s : List Char)
  | chr (test : Char → Bool)
  | soi
  | eoi
  | call (r : R)
  | seq (a b : Expr R)
  | choice (a b : Expr R)
  | opt (e : Expr R)
  | rep (e : Expr R)
  | neg (e : Expr R)
  | skip
  | more (e : Expr R)

namespace Expr
variable {R : Type}

def any : Expr R := chr fun _ => true

/-- `e+`. -/
def plus (e : Expr R) : Expr R := seq e (rep e)

/-- `a ~ b ~ …`. -/
def seqs : Expr R → List (Expr R) → Expr R
  | e, [] => e
  | e, f :: es => seq e (seqs f es)

/-- `a | b | …`. -/
def choices : Expr R → List (Expr R) → Expr R
  | e, [] => e
  | e, f :: es => choice e (choices f es)

end Expr

structure Grammar (R : Type) where
  kind : R → Kind
  body : R → Expr R
  whitespace : R
  comment : R

/-- What a rule has matched, and the rules called for it. -/
inductive Node (R : Type) where
  | mk (rule : R) (start stop : Pos) (inner : List (Node R))

namespace Node
variable {R : Type}

def rule : Node R → R
  | mk r _ _ _ => r

def start : Node R → Pos
  | mk _ s _ _ => s

def stop : Node R → Pos
  | mk _ _ t _ => t

def inner : Node R → List (Node R)
  | mk _ _ _ ns => ns

def text (n : Node R) : List Char := n.start.rest.take (n.stop.offset - n.start.offset)

@[simp] theorem rule_mk (r : R) (s t : Pos) (ns : List (Node R)) : (mk r s t ns).rule = r := rfl

@[simp] theorem inner_mk (r : R) (s t : Pos) (ns : List (Node R)) : (mk r s t ns).inner = ns := rfl

/-- The node or a node below it. -/
inductive Within : Node R → Node R → Prop where
  | self (n : Node R) : Within n n
  | inside {m x : Node R} {r : R} {s t : Pos} {ns : List (Node R)} (hx : x ∈ ns)
      (h : Within m x) : Within m (mk r s t ns)

theorem within_iff {m : Node R} {r : R} {s t : Pos} {ns : List (Node R)} :
    m.Within (mk r s t ns) ↔ m = mk r s t ns ∨ ∃ x ∈ ns, m.Within x := by
  constructor
  · rintro (_ | ⟨hx, h⟩)
    · exact .inl rfl
    · exact .inr ⟨_, hx, h⟩
  · rintro (rfl | ⟨x, hx, h⟩)
    · exact .self _
    · exact .inside hx h

theorem within_of_mem {m n : Node R} (h : m ∈ n.inner) : m.Within n := by
  obtain ⟨r, s, t, ns⟩ := n
  exact .inside h (.self m)

theorem Within.trans {k m n : Node R} (hk : k.Within m) (hm : m.Within n) : k.Within n := by
  induction hm with
  | self => exact hk
  | inside hx _ ih => exact .inside hx ih

theorem Within.sizeOf_le {m x : Node R} (h : m.Within x) : sizeOf m ≤ sizeOf x := by
  induction h with
  | self => exact Nat.le_refl _
  | inside hx _ ih =>
    have := List.sizeOf_lt_of_mem hx
    simp only [mk.sizeOf_spec]
    omega

/-- What holds of a node when it holds of all the nodes below it. -/
theorem below_induction {P : Node R → Prop}
    (h : ∀ n, (∀ m x, x ∈ n.inner → m.Within x → P m) → P n) (n : Node R) : P n := by
  induction hs : sizeOf n using Nat.strong_induction_on generalizing n with
  | _ k ih =>
    refine h n fun m x hx hm => ih (sizeOf m) ?_ m rfl
    have hle := hm.sizeOf_le
    obtain ⟨r, s, t, ns⟩ := n
    have := List.sizeOf_lt_of_mem hx
    simp only [mk.sizeOf_spec, inner] at hs this
    omega

end Node

inductive Outcome (R : Type) where
  | stuck
  | fail
  | ok (nodes : List (Node R)) (pos : Pos)

namespace Outcome
variable {R : Type}

def bind (o : Outcome R) (f : List (Node R) → Pos → Outcome R) : Outcome R :=
  match o with
  | ok ns q => f ns q
  | o => o

def orElse (o : Outcome R) (f : Outcome R) : Outcome R :=
  match o with
  | fail => f
  | o => o

variable {ns : List (Node R)} {q : Pos}

theorem bind_eq_ok {o : Outcome R} {f : List (Node R) → Pos → Outcome R} :
    o.bind f = .ok ns q ↔ ∃ ms r, o = .ok ms r ∧ f ms r = .ok ns q := by
  cases o <;> simp [bind]

theorem bind_eq_fail {o : Outcome R} {f : List (Node R) → Pos → Outcome R} :
    o.bind f = .fail ↔ o = .fail ∨ ∃ ms r, o = .ok ms r ∧ f ms r = .fail := by
  cases o <;> simp [bind]

theorem orElse_eq_ok {o f : Outcome R} :
    o.orElse f = .ok ns q ↔ o = .ok ns q ∨ o = .fail ∧ f = .ok ns q := by
  cases o <;> simp [orElse]

theorem orElse_ok_ne_fail {o : Outcome R} : o.orElse (.ok ns q) ≠ .fail := by
  cases o <;> simp [orElse]

theorem bind_ne_stuck {o : Outcome R} {f : List (Node R) → Pos → Outcome R} (ho : o ≠ .stuck)
    (hf : ∀ ns q, o = .ok ns q → f ns q ≠ .stuck) : o.bind f ≠ .stuck := by
  cases o with
  | stuck => exact absurd rfl ho
  | fail => simp [bind]
  | ok ns q => exact hf ns q rfl

theorem orElse_ne_stuck {o f : Outcome R} (ho : o ≠ .stuck) (hf : f ≠ .stuck) :
    o.orElse f ≠ .stuck := by
  cases o with
  | stuck => exact absurd rfl ho
  | fail => exact hf
  | ok ns q => simp [orElse]

end Outcome

section Run
variable {R : Type} [DecidableEq R] (g : Grammar R)

/-- White space, and comments with white space behind them. -/
def trivia : Expr R :=
  .seq (.rep (.call g.whitespace)) (.rep (.seq (.call g.comment) (.rep (.call g.whitespace))))

/-- White space and comments are matched as atomic rules are. -/
def isAtomic (r : R) : Bool := g.kind r = .atomic || r = g.whitespace || r = g.comment

/-- In an atomic rule, and in what it calls, nothing is implicit. `fuel` counts the calls that are
open. -/
def run : Nat → Bool → Expr R → Pos → Outcome R
  | 0, _, _, _ => .stuck
  | fuel + 1, atomic, e, p =>
    match e with
    | .str s => if s <+: p.rest then .ok [] (p.advance s.length) else .fail
    | .chr test => if p.rest.head?.any test then .ok [] (p.advance 1) else .fail
    | .soi => if p.offset = 0 then .ok [] p else .fail
    | .eoi => if p.rest = [] then .ok [] p else .fail
    | .call r =>
      (run fuel (atomic || isAtomic g r) (g.body r) p).bind fun ns q => .ok [.mk r p q ns] q
    | .seq a b =>
      (run fuel atomic a p).bind fun ns q => (run fuel atomic .skip q).bind fun ks q =>
        (run fuel atomic b q).bind fun ms q => .ok (ns ++ ks ++ ms) q
    | .choice a b => (run fuel atomic a p).orElse (run fuel atomic b p)
    | .opt e => (run fuel atomic e p).orElse (.ok [] p)
    | .rep e =>
      ((run fuel atomic e p).bind fun ns q =>
        (run fuel atomic (.more e) q).bind fun ms q => .ok (ns ++ ms) q).orElse (.ok [] p)
    | .more e =>
      ((run fuel atomic .skip p).bind fun ks q => (run fuel atomic e q).bind fun ns q =>
        (run fuel atomic (.more e) q).bind fun ms q => .ok (ks ++ ns ++ ms) q).orElse (.ok [] p)
    | .neg e =>
      match run fuel atomic e p with
      | .ok _ _ => .fail
      | .fail => .ok [] p
      | .stuck => .stuck
    | .skip => if atomic then .ok [] p else run fuel true (trivia g) p

end Run

/-! ### Matches -/

section Matches
variable {R : Type} [DecidableEq R] (g : Grammar R)

def Fails (atomic : Bool) (e : Expr R) (p : Pos) : Prop := ∃ fuel, run g fuel atomic e p = .fail

/-- What a run that succeeds has done. -/
inductive Matches : Bool → Expr R → Pos → List (Node R) → Pos → Prop where
  | str {atomic : Bool} {s : List Char} {p : Pos} (h : s <+: p.rest) :
    Matches atomic (.str s) p [] (p.advance s.length)
  | chr {atomic : Bool} {test : Char → Bool} {p : Pos} (h : p.rest.head?.any test) :
    Matches atomic (.chr test) p [] (p.advance 1)
  | soi {atomic : Bool} {p : Pos} (h : p.offset = 0) : Matches atomic .soi p [] p
  | eoi {atomic : Bool} {p : Pos} (h : p.rest = []) : Matches atomic .eoi p [] p
  | call {atomic : Bool} {r : R} {p q : Pos} {ns : List (Node R)}
    (h : Matches (atomic || isAtomic g r) (g.body r) p ns q) :
    Matches atomic (.call r) p [.mk r p q ns] q
  | seq {atomic : Bool} {a b : Expr R} {p q q' r : Pos} {ns ks ms : List (Node R)}
    (ha : Matches atomic a p ns q) (hskip : Matches atomic .skip q ks q')
    (hb : Matches atomic b q' ms r) : Matches atomic (.seq a b) p (ns ++ ks ++ ms) r
  | left {atomic : Bool} {a b : Expr R} {p q : Pos} {ns : List (Node R)}
    (h : Matches atomic a p ns q) : Matches atomic (.choice a b) p ns q
  | right {atomic : Bool} {a b : Expr R} {p q : Pos} {ns : List (Node R)}
    (ha : Fails g atomic a p) (h : Matches atomic b p ns q) : Matches atomic (.choice a b) p ns q
  | none {atomic : Bool} {e : Expr R} {p : Pos} (h : Fails g atomic e p) :
    Matches atomic (.opt e) p [] p
  | some {atomic : Bool} {e : Expr R} {p q : Pos} {ns : List (Node R)}
    (h : Matches atomic e p ns q) : Matches atomic (.opt e) p ns q
  | repNil {atomic : Bool} {e : Expr R} {p : Pos} (h : Fails g atomic e p) :
    Matches atomic (.rep e) p [] p
  | rep {atomic : Bool} {e : Expr R} {p q r : Pos} {ns ms : List (Node R)}
    (h : Matches atomic e p ns q) (hmore : Matches atomic (.more e) q ms r) :
    Matches atomic (.rep e) p (ns ++ ms) r
  | moreNil {atomic : Bool} {e : Expr R} {p q : Pos} {ks : List (Node R)}
    (hskip : Matches atomic .skip p ks q) (h : Fails g atomic e q) :
    Matches atomic (.more e) p [] p
  | more {atomic : Bool} {e : Expr R} {p q q' r : Pos} {ks ns ms : List (Node R)}
    (hskip : Matches atomic .skip p ks q) (h : Matches atomic e q ns q')
    (hmore : Matches atomic (.more e) q' ms r) : Matches atomic (.more e) p (ks ++ ns ++ ms) r
  | neg {atomic : Bool} {e : Expr R} {p : Pos} (h : Fails g atomic e p) :
    Matches atomic (.neg e) p [] p
  | skipAtomic {p : Pos} : Matches true .skip p [] p
  | skip {p q : Pos} {ks : List (Node R)} (h : Matches true (trivia g) p ks q) :
    Matches false .skip p ks q

end Matches

section Runs
variable {R : Type} [DecidableEq R] {g : Grammar R} {fuel : Nat} {atomic : Bool} {p q : Pos}
  {ns : List (Node R)}

theorem run_rep_ne_fail (e : Expr R) : run g fuel atomic (.rep e) p ≠ .fail := by
  cases fuel with
  | zero => simp [run]
  | succ fuel =>
    rw [run]
    exact Outcome.orElse_ok_ne_fail

theorem run_more_ne_fail (e : Expr R) : run g fuel atomic (.more e) p ≠ .fail := by
  cases fuel with
  | zero => simp [run]
  | succ fuel =>
    rw [run]
    exact Outcome.orElse_ok_ne_fail

theorem run_skip_ne_fail : run g fuel atomic .skip p ≠ .fail := by
  cases fuel with
  | zero => simp [run]
  | succ fuel =>
    rw [run]
    cases atomic with
    | true => simp
    | false =>
      cases fuel with
      | zero => simp [run]
      | succ fuel =>
        -- white space and comments are two repetitions, with nothing implicit between them
        intro h
        simp only [Bool.false_eq_true, if_false, trivia, run, Outcome.bind_eq_fail] at h
        rcases h with h | ⟨_, _, -, h⟩
        · exact run_rep_ne_fail _ h
        · rcases h with h | ⟨_, _, -, h⟩
          · cases fuel <;> simp [run] at h
          · rcases h with h | ⟨_, _, -, h⟩
            · exact run_rep_ne_fail _ h
            · cases h

theorem run_matches {e : Expr R} (h : run g fuel atomic e p = .ok ns q) :
    Matches g atomic e p ns q := by
  induction fuel generalizing atomic e p ns q with
  | zero => simp [run] at h
  | succ fuel ih =>
    cases e with
    | str s =>
      rw [run] at h
      split at h
      · next hs =>
        cases h
        exact .str hs
      · cases h
    | chr test =>
      rw [run] at h
      split at h
      · next hc =>
        cases h
        exact .chr hc
      · cases h
    | soi =>
      rw [run] at h
      split at h
      · next hp =>
        cases h
        exact .soi hp
      · cases h
    | eoi =>
      rw [run] at h
      split at h
      · next hp =>
        cases h
        exact .eoi hp
      · cases h
    | call r =>
      obtain ⟨ms, r', hrun, hok⟩ := Outcome.bind_eq_ok.mp (by rwa [run] at h)
      cases hok
      exact .call (ih hrun)
    | seq a b =>
      rw [run] at h
      obtain ⟨xs, p', ha, h⟩ := Outcome.bind_eq_ok.mp h
      obtain ⟨ks, p'', hskip, h⟩ := Outcome.bind_eq_ok.mp h
      obtain ⟨ms, p''', hb, h⟩ := Outcome.bind_eq_ok.mp h
      cases h
      exact .seq (ih ha) (ih hskip) (ih hb)
    | choice a b =>
      rw [run] at h
      rcases Outcome.orElse_eq_ok.mp h with h | ⟨ha, h⟩
      · exact .left (ih h)
      · exact .right ⟨fuel, ha⟩ (ih h)
    | opt e =>
      rw [run] at h
      rcases Outcome.orElse_eq_ok.mp h with h | ⟨he, h⟩
      · exact .some (ih h)
      · cases h
        exact .none ⟨fuel, he⟩
    | rep e =>
      rw [run] at h
      rcases Outcome.orElse_eq_ok.mp h with h | ⟨he, h⟩
      · obtain ⟨xs, p', he, h⟩ := Outcome.bind_eq_ok.mp h
        obtain ⟨ms, p'', hmore, h⟩ := Outcome.bind_eq_ok.mp h
        cases h
        exact .rep (ih he) (ih hmore)
      · cases h
        rcases Outcome.bind_eq_fail.mp he with he | ⟨xs, p', -, he⟩
        · exact .repNil ⟨fuel, he⟩
        · rcases Outcome.bind_eq_fail.mp he with he | ⟨_, _, -, he⟩
          · exact absurd he (run_more_ne_fail e)
          · cases he
    | more e =>
      rw [run] at h
      rcases Outcome.orElse_eq_ok.mp h with h | ⟨he, h⟩
      · obtain ⟨ks, p', hskip, h⟩ := Outcome.bind_eq_ok.mp h
        obtain ⟨xs, p'', he, h⟩ := Outcome.bind_eq_ok.mp h
        obtain ⟨ms, p''', hmore, h⟩ := Outcome.bind_eq_ok.mp h
        cases h
        exact .more (ih hskip) (ih he) (ih hmore)
      · cases h
        rcases Outcome.bind_eq_fail.mp he with he | ⟨ks, p', hskip, he⟩
        · exact absurd he run_skip_ne_fail
        · rcases Outcome.bind_eq_fail.mp he with he | ⟨_, _, -, he⟩
          · exact .moreNil (ih hskip) ⟨fuel, he⟩
          · rcases Outcome.bind_eq_fail.mp he with he | ⟨_, _, -, he⟩
            · exact absurd he (run_more_ne_fail e)
            · cases he
    | neg e =>
      rw [run] at h
      split at h
      · cases h
      · next he =>
        cases h
        exact .neg ⟨fuel, he⟩
      · cases h
    | skip =>
      rw [run] at h
      cases atomic with
      | true =>
        cases h
        exact .skipAtomic
      | false => exact .skip (ih h)

end Runs

/-! ### Pairs -/

section Pairs
variable {R : Type} (g : Grammar R)

mutual
/-- The derivation without its silent rules. -/
def written : Node R → List (Node R)
  | .mk r s t ns =>
    match g.kind r with
    | .silent => writtenAll ns
    | _ => [.mk r s t (writtenAll ns)]
def writtenAll : List (Node R) → List (Node R)
  | [] => []
  | n :: ns => written n ++ writtenAll ns
end

mutual
/-- A rule that is called by an atomic rule leaves no pair. -/
def pair : Node R → Node R
  | .mk r s t ns => .mk r s t (if g.kind r = .atomic then [] else pairs ns)
def pairs : List (Node R) → List (Node R)
  | [] => []
  | n :: ns => pair n :: pairs ns
end

variable {g}

theorem writtenAll_append (ns ms : List (Node R)) :
    writtenAll g (ns ++ ms) = writtenAll g ns ++ writtenAll g ms := by
  induction ns with
  | nil => rfl
  | cons n ns ih => rw [List.cons_append, writtenAll, writtenAll, ih, List.append_assoc]

theorem writtenAll_singleton (n : Node R) : writtenAll g [n] = written g n := by
  rw [writtenAll, writtenAll, List.append_nil]

theorem pairs_eq_map (ns : List (Node R)) : pairs g ns = ns.map (pair g) := by
  induction ns with
  | nil => rfl
  | cons n ns ih => rw [pairs, ih, List.map_cons]

@[simp] theorem pair_rule (n : Node R) : (pair g n).rule = n.rule := by
  cases n
  rfl

@[simp] theorem pair_text (n : Node R) : (pair g n).text = n.text := by
  cases n
  rfl

theorem pair_mk {r : R} (h : g.kind r ≠ .atomic) (s t : Pos) (ns : List (Node R)) :
    pair g (.mk r s t ns) = .mk r s t (ns.map (pair g)) := by
  rw [pair, if_neg h, pairs_eq_map]

theorem pair_mk_atomic {r : R} (h : g.kind r = .atomic) (s t : Pos) (ns : List (Node R)) :
    pair g (.mk r s t ns) = .mk r s t [] := by
  rw [pair, if_pos h]

end Pairs

/-! ### What a match reads -/

/-- The input between two positions. -/
def Pos.Reaches (p q : Pos) : Prop := ∃ s, p.rest = s ++ q.rest ∧ q.offset = p.offset + s.length

theorem Pos.Reaches.refl (p : Pos) : p.Reaches p := ⟨[], rfl, rfl⟩

theorem Pos.Reaches.trans {p q r : Pos} (h : p.Reaches q) (h' : q.Reaches r) : p.Reaches r := by
  obtain ⟨s, hs, hso⟩ := h
  obtain ⟨t, ht, hto⟩ := h'
  refine ⟨s ++ t, by rw [hs, ht, List.append_assoc], ?_⟩
  rw [hto, hso, List.length_append, Nat.add_assoc]

theorem Pos.Reaches.advance {p : Pos} {n : Nat} (h : n ≤ p.rest.length) :
    p.Reaches (p.advance n) := by
  refine ⟨p.rest.take n, (List.take_append_drop n p.rest).symm, ?_⟩
  rw [List.length_take, Nat.min_eq_left h]
  rfl

/-- The text of a node is what its rule has read. -/
theorem Node.text_append {R : Type} {n : Node R} (h : n.start.Reaches n.stop) :
    n.start.rest = n.text ++ n.stop.rest := by
  obtain ⟨s, hs, hoff⟩ := h
  have hlen : n.stop.offset - n.start.offset = s.length := by omega
  rw [Node.text, hlen, hs, List.take_left]

section Reading
variable {R : Type} [DecidableEq R] {g : Grammar R} {atomic : Bool} {e : Expr R} {p q : Pos}
  {ns : List (Node R)}

theorem Matches.reaches (h : Matches g atomic e p ns q) : p.Reaches q := by
  induction h with
  | str h => exact .advance h.length_le
  | @chr _ _ p h =>
    refine .advance ?_
    cases hp : p.rest with
    | nil => simp [hp] at h
    | cons c u => simp
  | soi | eoi | none | repNil | moreNil | neg | skipAtomic => exact .refl _
  | call _ ih | left _ ih | right _ _ ih | some _ ih | skip _ ih => exact ih
  | seq _ _ _ iha ihskip ihb => exact iha.trans (ihskip.trans ihb)
  | rep _ _ ih ihmore => exact ih.trans ihmore
  | more _ _ _ ihskip ih ihmore => exact ihskip.trans (ih.trans ihmore)

theorem Matches.of_choice {a b : Expr R} (h : Matches g atomic (.choice a b) p ns q) :
    Matches g atomic a p ns q ∨ Matches g atomic b p ns q := by
  cases h with
  | left h => exact .inl h
  | right _ h => exact .inr h

theorem Matches.of_atomic_seq {a b : Expr R} (h : Matches g true (.seq a b) p ns q) :
    ∃ r ks ms, Matches g true a p ks r ∧ Matches g true b r ms q := by
  cases h with
  | seq ha hskip hb =>
    cases hskip
    exact ⟨_, _, _, ha, hb⟩

theorem Matches.of_str {s : List Char} (h : Matches g atomic (.str s) p ns q) :
    s <+: p.rest ∧ q = p.advance s.length := by
  cases h with
  | str h => exact ⟨h, rfl⟩

/-- The text of a node whose rule has matched a word. -/
theorem Node.text_of_str {n : Node R} {s : List Char}
    (h : Matches g atomic (.str s) n.start ns n.stop) : n.text = s := by
  obtain ⟨hs, hstop⟩ := h.of_str
  rw [Node.text, hstop]
  simpa [Pos.advance] using (List.prefix_iff_eq_take.mp hs).symm

/-- Every node of a match is a match of its rule. -/
theorem Matches.within (h : Matches g atomic e p ns q) {m x : Node R} (hx : x ∈ ns)
    (hm : m.Within x) : ∃ a, Matches g (a || isAtomic g m.rule) (g.body m.rule) m.start m.inner
      m.stop := by
  induction h generalizing x with
  | str | chr | soi | eoi | none | repNil | moreNil | neg | skipAtomic => cases hx
  | @call a r p q ns h ih =>
    obtain rfl := List.mem_singleton.mp hx
    cases hm with
    | self => exact ⟨a, h⟩
    | inside hx hm => exact ih hx hm
  | left _ ih | right _ _ ih | some _ ih | skip _ ih => exact ih hx hm
  | seq _ _ _ iha ihskip ihb =>
    rcases List.mem_append.mp hx with hx | hx
    · rcases List.mem_append.mp hx with hx | hx
      · exact iha hx hm
      · exact ihskip hx hm
    · exact ihb hx hm
  | rep _ _ ih ihmore =>
    rcases List.mem_append.mp hx with hx | hx
    · exact ih hx hm
    · exact ihmore hx hm
  | more _ _ _ ihskip ih ihmore =>
    rcases List.mem_append.mp hx with hx | hx
    · rcases List.mem_append.mp hx with hx | hx
      · exact ihskip hx hm
      · exact ih hx hm
    · exact ihmore hx hm

/-- In an atomic rule a repetition is its rounds, and ends where there is no other. -/
theorem Matches.atomic_rounds {P : Pos → Pos → Prop} (hstop : ∀ p, Fails g true e p → P p p)
    (hround : ∀ {p ns q r}, Matches g true e p ns q → P q r → P p r)
    (h : Matches g true (.rep e) p ns q) : P p q := by
  have hskip : ∀ {p ks q}, Matches g true .skip p ks q → p = q := by
    intro p ks q h
    cases h
    rfl
  have hmore : ∀ {x p ns q}, Matches g true x p ns q → x = .more e → P p q := by
    intro x p ns q h
    generalize hat : true = a at h
    induction h with
    | moreNil hs hfail =>
      rintro ⟨⟩
      subst hat
      obtain rfl := hskip hs
      exact hstop _ hfail
    | more hs h _ _ _ ih =>
      rintro ⟨⟩
      subst hat
      obtain rfl := hskip hs
      exact hround h (ih rfl rfl)
    | _ => rintro ⟨⟩
  cases h with
  | repNil h => exact hstop _ h
  | rep h hm => exact hround h (hmore hm rfl)

end Reading

/-! ### The shape of a derivation -/

section Shape
variable {R : Type}

def Expr.callsIn (S : R → Bool) : Expr R → Bool
  | .call r => S r
  | .seq a b | .choice a b => a.callsIn S && b.callsIn S
  | .opt e | .rep e | .more e | .neg e => e.callsIn S
  | _ => true

variable [DecidableEq R] (g : Grammar R)

/-- Its rule matches from where the node begins to where it ends. -/
def Node.Matched (n : Node R) : Prop :=
  ∃ a ns, Matches g (a || isAtomic g n.rule) (g.body n.rule) n.start ns n.stop

/-- The nodes that an expression leaves, silent rules left out. -/
inductive Fits : Expr R → List (Node R) → Prop where
  | str {s : List Char} : Fits (.str s) []
  | chr {test : Char → Bool} : Fits (.chr test) []
  | soi : Fits .soi []
  | eoi : Fits .eoi []
  | silent {r : R} {ns : List (Node R)} (hr : g.kind r = .silent) (h : Fits (g.body r) ns) :
    Fits (.call r) ns
  | call {r : R} {s t : Pos} {ns : List (Node R)} (hr : g.kind r ≠ .silent)
    (hm : (Node.mk r s t ns).Matched g) (h : Fits (g.body r) ns) : Fits (.call r) [.mk r s t ns]
  | seq {a b : Expr R} {ns ms : List (Node R)} (ha : Fits a ns) (hb : Fits b ms) :
    Fits (.seq a b) (ns ++ ms)
  | left {a b : Expr R} {ns : List (Node R)} (h : Fits a ns) : Fits (.choice a b) ns
  | right {a b : Expr R} {ns : List (Node R)} (h : Fits b ns) : Fits (.choice a b) ns
  | none {e : Expr R} : Fits (.opt e) []
  | some {e : Expr R} {ns : List (Node R)} (h : Fits e ns) : Fits (.opt e) ns
  | repNil {e : Expr R} : Fits (.rep e) []
  | rep {e : Expr R} {ns ms : List (Node R)} (h : Fits e ns) (hmore : Fits (.rep e) ms) :
    Fits (.rep e) (ns ++ ms)
  | more {e : Expr R} {ns : List (Node R)} (h : Fits (.rep e) ns) : Fits (.more e) ns
  | neg {e : Expr R} : Fits (.neg e) []
  | skip : Fits .skip []

/-- White space and comments leave nothing. -/
structure Quiet : Prop where
  whitespace : g.kind g.whitespace = .silent
  comment : g.kind g.comment = .silent
  inWhitespace : (g.body g.whitespace).callsIn fun r => r = g.whitespace || r = g.comment
  inComment : (g.body g.comment).callsIn fun r => r = g.whitespace || r = g.comment

variable {g}

variable {atomic : Bool} {e : Expr R} {p q : Pos} {ns : List (Node R)}

theorem Quiet.nothing (hq : Quiet g) (h : Matches g atomic e p ns q)
    (he : e.callsIn fun r => r = g.whitespace || r = g.comment) : writtenAll g ns = [] := by
  induction h with
  | str | chr | soi | eoi | none | repNil | moreNil | neg | skipAtomic => rfl
  | @call _ r _ _ _ _ ih =>
    have hr : r = g.whitespace ∨ r = g.comment := by simpa [Expr.callsIn] using he
    rw [writtenAll_singleton, written]
    rcases hr with rfl | rfl
    · rw [hq.whitespace]
      exact ih hq.inWhitespace
    · rw [hq.comment]
      exact ih hq.inComment
  | seq _ _ _ iha ihskip ihb =>
    have hab := Bool.and_eq_true_iff.mp he
    rw [writtenAll_append, writtenAll_append, iha hab.1, ihskip rfl, ihb hab.2]
    rfl
  | left _ ih => exact ih (Bool.and_eq_true_iff.mp he).1
  | right _ _ ih => exact ih (Bool.and_eq_true_iff.mp he).2
  | some _ ih => exact ih he
  | rep _ _ ih ihmore =>
    rw [writtenAll_append, ih he, ihmore he]
    rfl
  | more _ _ _ ihskip ih ihmore =>
    rw [writtenAll_append, writtenAll_append, ihskip rfl, ih he, ihmore he]
    rfl
  | skip _ ih => exact ih (by simp [trivia, Expr.callsIn])

theorem Matches.fits (hq : Quiet g) (h : Matches g atomic e p ns q) :
    Fits g e (writtenAll g ns) := by
  induction h with
  | str => exact .str
  | chr => exact .chr
  | soi => exact .soi
  | eoi => exact .eoi
  | @call a r _ _ ns h ih =>
    rw [writtenAll_singleton, written]
    cases hr : g.kind r with
    | silent => exact .silent hr ih
    | normal => exact .call (by rw [hr]; decide) ⟨a, ns, h⟩ ih
    | atomic => exact .call (by rw [hr]; decide) ⟨a, ns, h⟩ ih
  | seq _ hskip _ iha _ ihb =>
    rw [writtenAll_append, writtenAll_append, hq.nothing hskip rfl, List.append_nil]
    exact .seq iha ihb
  | left _ ih => exact .left ih
  | right _ _ ih => exact .right ih
  | none => exact .none
  | some _ ih => exact .some ih
  | repNil => exact .repNil
  | rep _ _ ih ihmore =>
    rw [writtenAll_append]
    cases ihmore with
    | more h => exact .rep ih h
  | moreNil => exact .more .repNil
  | more hskip _ _ _ ih ihmore =>
    rw [writtenAll_append, writtenAll_append, hq.nothing hskip rfl, List.nil_append]
    cases ihmore with
    | more h => exact .more (.rep ih h)
  | neg => exact .neg
  | skipAtomic => exact .skip
  | skip h _ =>
    rw [hq.nothing h (by simp [trivia, Expr.callsIn])]
    exact .skip

end Shape

section Forms
variable {R : Type} [DecidableEq R] {g : Grammar R} {e : Expr R} {ns : List (Node R)}

/-- A node of the rule, with the shape that the rule gives it. -/
structure Node.Of (g : Grammar R) (r : R) (n : Node R) : Prop where
  rule : n.rule = r
  matched : n.Matched g
  fits : Fits g (g.body r) n.inner

@[simp] theorem fits_str {s : List Char} : Fits g (.str s) ns ↔ ns = [] := by
  constructor
  · rintro ⟨⟩
    rfl
  · rintro rfl
    exact .str

@[simp] theorem fits_chr {test : Char → Bool} : Fits g (.chr test) ns ↔ ns = [] := by
  constructor
  · rintro ⟨⟩
    rfl
  · rintro rfl
    exact .chr

@[simp] theorem fits_soi : Fits g .soi ns ↔ ns = [] := by
  constructor
  · rintro ⟨⟩
    rfl
  · rintro rfl
    exact .soi

@[simp] theorem fits_eoi : Fits g .eoi ns ↔ ns = [] := by
  constructor
  · rintro ⟨⟩
    rfl
  · rintro rfl
    exact .eoi

@[simp] theorem fits_neg : Fits g (.neg e) ns ↔ ns = [] := by
  constructor
  · rintro ⟨⟩
    rfl
  · rintro rfl
    exact .neg

@[simp] theorem fits_seq {a b : Expr R} :
    Fits g (.seq a b) ns ↔ ∃ xs, Fits g a xs ∧ ∃ ys, Fits g b ys ∧ ns = xs ++ ys := by
  constructor
  · intro h
    cases h with
    | seq ha hb => exact ⟨_, ha, _, hb, rfl⟩
  · rintro ⟨_, ha, _, hb, rfl⟩
    exact .seq ha hb

@[simp] theorem fits_choice {a b : Expr R} :
    Fits g (.choice a b) ns ↔ Fits g a ns ∨ Fits g b ns := by
  constructor
  · intro h
    cases h with
    | left h => exact .inl h
    | right h => exact .inr h
  · rintro (h | h)
    · exact .left h
    · exact .right h

@[simp] theorem fits_opt : Fits g (.opt e) ns ↔ ns = [] ∨ Fits g e ns := by
  constructor
  · intro h
    cases h with
    | none => exact .inl rfl
    | some h => exact .inr h
  · rintro (rfl | h)
    · exact .none
    · exact .some h

theorem fits_call {r : R} (hr : g.kind r ≠ .silent) :
    Fits g (.call r) ns ↔ ∃ n, n.Of g r ∧ ns = [n] := by
  constructor
  · intro h
    cases h with
    | silent hs _ => exact absurd hs hr
    | @call _ s t inner _ hm h => exact ⟨.mk r s t inner, ⟨rfl, hm, h⟩, rfl⟩
  · rintro ⟨⟨_, s, t, inner⟩, ⟨rfl, hm, h⟩, rfl⟩
    exact .call hr hm h

/-- What holds of all the nodes of a round holds of all the nodes of a repetition. -/
theorem Fits.rep_all {P : Node R → Prop} (hround : ∀ xs, Fits g e xs → ∀ n ∈ xs, P n)
    (h : Fits g (.rep e) ns) : ∀ n ∈ ns, P n := by
  generalize hx : Expr.rep e = x at h
  induction h with
  | repNil => exact fun n hn => absurd hn List.not_mem_nil
  | rep h _ _ ih =>
    cases hx
    intro n hn
    rcases List.mem_append.mp hn with hn | hn
    · exact hround _ h n hn
    · exact ih rfl n hn
  | _ => cases hx

theorem Fits.rep_of {r : R} (hr : g.kind r ≠ .silent) (h : Fits g (.rep (.call r)) ns) :
    ∀ n ∈ ns, n.Of g r := by
  refine h.rep_all fun xs hxs n hn => ?_
  obtain ⟨m, hm, rfl⟩ := (fits_call hr).mp hxs
  rwa [List.mem_singleton.mp hn]

/-- Rounds that begin with a separator. -/
theorem Fits.rep_sep {r : R} {s : List Char} (hr : g.kind r ≠ .silent)
    (h : Fits g (.rep (.seq (.str s) (.call r))) ns) : ∀ n ∈ ns, n.Of g r := by
  refine h.rep_all fun xs hxs n hn => ?_
  obtain ⟨_, rfl, _, hr', rfl⟩ : ∃ ys, ys = [] ∧ ∃ zs, Fits g (.call r) zs ∧ xs = ys ++ zs := by
    simpa using hxs
  obtain ⟨m, hm, rfl⟩ := (fits_call hr).mp hr'
  rwa [List.mem_singleton.mp hn]

/-- Rules that call each other only are the only ones below a call of one. -/
theorem Fits.closed {S : R → Bool} (hS : ∀ r, S r → (g.body r).callsIn S) (he : e.callsIn S)
    (h : Fits g e ns) {m x : Node R} (hx : x ∈ ns) (hm : m.Within x) : S m.rule := by
  induction h generalizing x with
  | str | chr | soi | eoi | none | repNil | neg | skip => cases hx
  | silent _ _ ih => exact ih (hS _ he) hx hm
  | call _ _ _ ih =>
    obtain rfl := List.mem_singleton.mp hx
    cases hm with
    | self => exact he
    | inside hx hm => exact ih (hS _ he) hx hm
  | seq _ _ iha ihb =>
    have hab := Bool.and_eq_true_iff.mp he
    rcases List.mem_append.mp hx with hx | hx
    · exact iha hab.1 hx hm
    · exact ihb hab.2 hx hm
  | left _ ih => exact ih (Bool.and_eq_true_iff.mp he).1 hx hm
  | right _ ih => exact ih (Bool.and_eq_true_iff.mp he).2 hx hm
  | some _ ih | more _ ih => exact ih he hx hm
  | rep _ _ ih ihmore =>
    rcases List.mem_append.mp hx with hx | hx
    · exact ih he hx hm
    · exact ihmore he hx hm

end Forms

/-! ### Up to a word -/

section Scan

/-- From the first place on where the word stands. -/
def scanTo (word : List Char) : List Char → List Char
  | [] => []
  | c :: u => if word <+: c :: u then c :: u else scanTo word u

section Word
variable {word l r : List Char}

/-- The word stands there, or nothing is left. -/
theorem scanTo_eq (u : List Char) : scanTo word u = [] ∨ word <+: scanTo word u := by
  induction u with
  | nil => exact .inl rfl
  | cons c u ih =>
    rw [scanTo]
    split
    · next h => exact .inr h
    · exact ih

theorem scanTo_suffix (u : List Char) : scanTo word u <:+ u := by
  induction u with
  | nil => exact List.suffix_rfl
  | cons c u ih =>
    rw [scanTo]
    split
    · exact List.suffix_rfl
    · exact ih.trans (List.suffix_cons c u)

/-- A text in which the word does not begin is passed over. -/
theorem scanTo_append (h : ∀ v, v ≠ [] → v <:+ l → ¬ word <+: v ++ r) :
    scanTo word (l ++ r) = scanTo word r := by
  induction l with
  | nil => rfl
  | cons c l ih =>
    have hc : ¬ word <+: c :: (l ++ r) := h (c :: l) (by simp) List.suffix_rfl
    rw [List.cons_append, scanTo, if_neg hc]
    exact ih fun v hv hsuffix => h v hv (hsuffix.trans (List.suffix_cons c l))

theorem scanTo_self (h : r = [] ∨ word <+: r) : scanTo word r = r := by
  cases r with
  | nil => rfl
  | cons c u => rw [scanTo, if_pos (h.resolve_left (by simp))]

/-- A word does not go on behind a character that it does not have. -/
theorem prefix_of_not_mem {c : Char} (hc : c ∉ word) (hr : r = [] ∨ ∃ u, r = c :: u)
    (h : word <+: l ++ r) : word <+: l := by
  rcases List.prefix_or_prefix_of_prefix h (List.prefix_append l r) with hl | ⟨v, rfl⟩
  · exact hl
  · have hv := (List.prefix_append_right_inj l).mp h
    cases v with
    | nil => rw [List.append_nil]
    | cons a v =>
      rcases hr with rfl | ⟨u, rfl⟩
      · exact absurd hv (by simp)
      · obtain rfl := (List.cons_prefix_cons.mp hv).1
        exact absurd (List.mem_append_right l (List.mem_cons_self ..)) hc

/-- A line without the word is passed over. -/
theorem scanTo_line {c : Char} (hc : c ∉ word) (hr : r = [] ∨ ∃ u, r = c :: u)
    (h : ¬ word <:+: l) : scanTo word (l ++ r) = scanTo word r :=
  scanTo_append fun _ _ hsuffix hprefix =>
    h ((prefix_of_not_mem hc hr hprefix).isInfix.trans hsuffix.isInfix)

/-- The word is not missed. -/
theorem scanTo_of_prefix (h : word <+: r) : ∃ u v, l = u ++ v ∧ scanTo word (l ++ r) = v ++ r := by
  induction l with
  | nil =>
    refine ⟨[], [], rfl, ?_⟩
    cases r with
    | nil => rfl
    | cons c r => rw [List.nil_append, scanTo, if_pos h]
  | cons c l ih =>
    by_cases hc : word <+: c :: (l ++ r)
    · exact ⟨[], c :: l, rfl, by rw [List.cons_append, scanTo, if_pos hc]⟩
    · obtain ⟨u, v, rfl, hscan⟩ := ih
      exact ⟨c :: u, v, rfl, by rw [List.cons_append, scanTo, if_neg hc, hscan]⟩

end Word

variable {R : Type} [DecidableEq R] {g : Grammar R} {word : List Char} {p q : Pos}
  {ns : List (Node R)}

theorem run_neg_str (fuel : Nat) (atomic : Bool) : run g (fuel + 2) atomic (.neg (.str word)) p =
    if word <+: p.rest then .fail else .ok [] p := by
  by_cases h : word <+: p.rest <;> simp [run, h]

/-- Another character is there unless the word is. -/
theorem word_of_fails (h : Fails g true (.seq (.neg (.str word)) .any) p) :
    p.rest = [] ∨ word <+: p.rest := by
  obtain ⟨fuel, hfail⟩ := h
  by_contra hno
  obtain ⟨hrest, hword⟩ := not_or.mp hno
  obtain ⟨c, u, hp⟩ := List.exists_cons_of_ne_nil hrest
  match fuel with
  | 0 => cases hfail
  | 1 => cases hfail
  | 2 => cases hfail
  | fuel + 3 =>
    rw [run, run_neg_str, if_neg hword] at hfail
    simp [run, Expr.any, Outcome.bind, hp] at hfail

/-- `(!word ~ ANY)*`. -/
theorem Matches.scan (h : Matches g true (.rep (.seq (.neg (.str word)) .any)) p ns q) :
    q.rest = scanTo word p.rest := by
  refine h.atomic_rounds (P := fun p q => q.rest = scanTo word p.rest) ?_ ?_
  · intro p hfail
    cases hp : p.rest with
    | nil => rfl
    | cons c u =>
      have hword := (word_of_fails hfail).resolve_left (by simp [hp])
      rw [hp] at hword
      rw [scanTo, if_pos hword]
  · intro p ns q r hround hr
    cases hround with
    | seq hneg hskip hany =>
      cases hneg with
      | neg hfail =>
        cases hskip
        cases hany with
        | chr hc =>
          obtain ⟨fuel, hfail⟩ := hfail
          cases hp : p.rest with
          | nil => simp [hp] at hc
          | cons c u =>
            have hword : ¬ word <+: c :: u := by
              intro hword
              rw [← hp] at hword
              cases fuel <;> simp [run, hword] at hfail
            rw [hr, scanTo, if_neg hword, Pos.advance, hp]
            rfl

end Scan

/-! ### Grammars whose runs end -/

section Total
variable {R : Type}

/-- The expression can match without reading anything, where `N` says it of the rules. -/
def Expr.nullable (N : R → Bool) : Expr R → Bool
  | .str s => s.isEmpty
  | .chr _ => false
  | .call r => N r
  | .seq a b => a.nullable N && b.nullable N
  | .choice a b => a.nullable N || b.nullable N
  | _ => true

/-- How deep calls can be before anything is read, where `rank` says it of the rules and `t` of
white space and comments. -/
def Expr.weight (N : R → Bool) (rank : R → Nat) (t : Nat) : Expr R → Nat
  | .call r => rank r
  | .seq a b =>
    max (a.weight N rank t) (if a.nullable N then max t (b.weight N rank t) else 0) + 1
  | .choice a b => max (a.weight N rank t) (b.weight N rank t) + 1
  | .opt e | .neg e => e.weight N rank t + 1
  | .rep e | .more e => max t (e.weight N rank t) + 1
  | .skip => t
  | _ => 0

/-- No part weighs more than `W`, and every round of a repetition reads something. -/
def Expr.bounded (N : R → Bool) (rank : R → Nat) (t W : Nat) : Expr R → Bool
  | .seq a b => (Expr.seq a b).weight N rank t ≤ W && a.bounded N rank t W && b.bounded N rank t W
  | .choice a b =>
    (Expr.choice a b).weight N rank t ≤ W && a.bounded N rank t W && b.bounded N rank t W
  | .opt e => (Expr.opt e).weight N rank t ≤ W && e.bounded N rank t W
  | .neg e => (Expr.neg e).weight N rank t ≤ W && e.bounded N rank t W
  | .rep e => (Expr.rep e).weight N rank t ≤ W && !e.nullable N && e.bounded N rank t W
  | .more e => (Expr.more e).weight N rank t ≤ W && !e.nullable N && e.bounded N rank t W
  | .call r => rank r ≤ W
  | .skip => t ≤ W
  | _ => true

/-- There is no left recursion and no empty round: every rule has a rank above what it calls
first. -/
structure Ranking [DecidableEq R] (g : Grammar R) where
  nullable : R → Bool
  rank : R → Nat
  trivia : Nat
  bound : Nat
  nullable_body : ∀ r, (g.body r).nullable nullable → nullable r
  rank_body : ∀ r, (g.body r).weight nullable rank trivia < rank r
  bounded_body : ∀ r, (g.body r).bounded nullable rank trivia bound
  trivia_weight : (Peg.trivia g).weight nullable rank 0 < trivia
  bounded_trivia : (Peg.trivia g).bounded nullable rank trivia bound
  rank_le : ∀ r, rank r ≤ bound
  trivia_le : trivia ≤ bound

variable {N : R → Bool} {rank : R → Nat}

theorem Expr.weight_mono {t t' : Nat} (h : t ≤ t') (e : Expr R) :
    e.weight N rank t ≤ e.weight N rank t' := by
  induction e with
  | str | chr | soi | eoi | call => exact Nat.le_refl _
  | seq a b iha ihb =>
    simp only [weight]
    split <;> omega
  | choice a b iha ihb =>
    simp only [weight]
    omega
  | opt e ih | neg e ih | rep e ih | more e ih =>
    simp only [weight]
    omega
  | skip => exact h

theorem Expr.bounded_weight {t W : Nat} {e : Expr R} (h : e.bounded N rank t W) :
    e.weight N rank t ≤ W := by
  cases e with
  | str | chr | soi | eoi => exact Nat.zero_le _
  | call | skip => simpa [bounded, weight] using h
  | seq | choice | rep | more =>
    simp only [bounded, Bool.and_eq_true, decide_eq_true_eq] at h
    exact h.1.1
  | opt | neg =>
    simp only [bounded, Bool.and_eq_true, decide_eq_true_eq] at h
    exact h.1

variable [DecidableEq R] {g : Grammar R}

theorem Matches.length_le {atomic : Bool} {e : Expr R} {p q : Pos} {ns : List (Node R)}
    (h : Matches g atomic e p ns q) : q.rest.length ≤ p.rest.length := by
  obtain ⟨s, hs, -⟩ := h.reaches
  rw [hs, List.length_append]
  omega

theorem Ranking.length_lt (K : Ranking g) {atomic : Bool} {e : Expr R} {p q : Pos}
    {ns : List (Node R)} (h : Matches g atomic e p ns q) (he : e.nullable K.nullable = false) :
    q.rest.length < p.rest.length := by
  induction h with
  | @str _ s p hs =>
    have hlen := hs.length_le
    have hne : s ≠ [] := by simpa [Expr.nullable] using he
    have hpos := List.length_pos_iff.mpr hne
    simp only [Pos.advance, List.length_drop]
    omega
  | @chr _ _ p hc =>
    cases hp : p.rest with
    | nil => simp [hp] at hc
    | cons c u => simp [Pos.advance, hp]
  | soi | eoi | none | some | repNil | rep | moreNil | more | neg | skipAtomic | skip =>
    cases he
  | @call _ r _ _ _ _ ih =>
    refine ih ?_
    rw [← Bool.not_eq_true]
    intro hbody
    rw [Expr.nullable, K.nullable_body r hbody] at he
    cases he
  | @seq _ a b _ _ _ _ _ _ _ ha hskip hb iha _ ihb =>
    have h1 := ha.length_le
    have h2 := hskip.length_le
    have h3 := hb.length_le
    rcases Bool.and_eq_false_iff.mp he with he | he
    · have := iha he
      omega
    · have := ihb he
      omega
  | left _ ih => exact ih (Bool.or_eq_false_iff.mp he).1
  | right _ _ ih => exact ih (Bool.or_eq_false_iff.mp he).2

namespace Ranking
variable (K : Ranking g)

def triviaAt (atomic : Bool) : Nat := if atomic then 0 else K.trivia

/-- What fuel has to exceed. -/
def need (atomic : Bool) (e : Expr R) (p : Pos) : Nat :=
  p.rest.length * (K.bound + 1) + e.weight K.nullable K.rank (K.triviaAt atomic)

def Bounded (e : Expr R) : Prop := e.bounded K.nullable K.rank K.trivia K.bound = true

variable {K}

theorem triviaAt_le (atomic : Bool) : K.triviaAt atomic ≤ K.trivia := by
  unfold triviaAt
  split
  · exact Nat.zero_le _
  · exact Nat.le_refl _

/-- A call further on, or one of less weight, needs less. -/
theorem need_lt {atomic atomic' : Bool} {e e' : Expr R} {p q : Pos} (he' : K.Bounded e')
    (h : q.rest.length < p.rest.length ∨ q.rest.length ≤ p.rest.length ∧
      e'.weight K.nullable K.rank (K.triviaAt atomic') <
        e.weight K.nullable K.rank (K.triviaAt atomic)) :
    K.need atomic' e' q < K.need atomic e p := by
  have hw := Expr.bounded_weight he'
  have hmono : e'.weight K.nullable K.rank (K.triviaAt atomic') ≤
      e'.weight K.nullable K.rank K.trivia := Expr.weight_mono (triviaAt_le atomic') e'
  unfold need
  rcases h with h | ⟨h, hlt⟩
  · have := Nat.mul_le_mul_right (K.bound + 1) (Nat.succ_le_of_lt h)
    rw [Nat.succ_mul] at this
    omega
  · have := Nat.mul_le_mul_right (K.bound + 1) h
    omega

/-- With fuel beyond what it needs a run ends. -/
theorem run_ne_stuck {fuel : Nat} {atomic : Bool} {e : Expr R} {p : Pos} (he : K.Bounded e)
    (hfuel : K.need atomic e p < fuel) : run g fuel atomic e p ≠ .stuck := by
  induction fuel generalizing atomic e p with
  | zero => omega
  | succ fuel ih =>
    -- a call that begins further on or weighs less
    have hcall : ∀ {at' e' q}, K.Bounded e' →
        (q.rest.length < p.rest.length ∨ q.rest.length ≤ p.rest.length ∧
          e'.weight K.nullable K.rank (K.triviaAt at') <
            e.weight K.nullable K.rank (K.triviaAt atomic)) →
        run g fuel at' e' q ≠ .stuck := by
      intro at' e' q hb h
      have := need_lt hb h
      exact ih hb (by omega)
    have hskip : K.Bounded .skip := decide_eq_true K.trivia_le
    cases e with
    | str | chr | soi | eoi =>
      rw [run]
      split <;> simp
    | call r =>
      rw [run]
      refine Outcome.bind_ne_stuck (hcall (K.bounded_body r) (.inr ⟨Nat.le_refl _, ?_⟩))
        fun _ _ _ => by simp
      exact Nat.lt_of_le_of_lt (Expr.weight_mono (triviaAt_le _) _) (K.rank_body r)
    | seq a b =>
      simp only [Bounded, Expr.bounded, Bool.and_eq_true] at he
      obtain ⟨⟨-, ha⟩, hb⟩ := he
      rw [run]
      refine Outcome.bind_ne_stuck (hcall ha (.inr ⟨Nat.le_refl _, ?_⟩)) fun ns q hq => ?_
      · simp only [Expr.weight]
        omega
      have hmatch := run_matches hq
      have hle := hmatch.length_le
      -- what follows is at the same place only when `a` may read nothing
      have hrest : q.rest.length < p.rest.length ∨ a.nullable K.nullable = true := by
        cases hn : a.nullable K.nullable with
        | true => exact .inr rfl
        | false => exact .inl (K.length_lt hmatch hn)
      refine Outcome.bind_ne_stuck (hcall hskip ?_) fun ks q' hq' => ?_
      · rcases hrest with h | h
        · exact .inl h
        · refine .inr ⟨hle, ?_⟩
          simp only [Expr.weight, h, if_true]
          omega
      have hle' := (run_matches hq').length_le
      refine Outcome.bind_ne_stuck (hcall hb ?_) fun _ _ _ => by simp
      rcases hrest with h | h
      · exact .inl (by omega)
      · refine .inr ⟨by omega, ?_⟩
        simp only [Expr.weight, h, if_true]
        omega
    | choice a b =>
      simp only [Bounded, Expr.bounded, Bool.and_eq_true] at he
      obtain ⟨⟨-, ha⟩, hb⟩ := he
      rw [run]
      refine Outcome.orElse_ne_stuck (hcall ha (.inr ⟨Nat.le_refl _, ?_⟩))
        (hcall hb (.inr ⟨Nat.le_refl _, ?_⟩))
      · simp only [Expr.weight]
        omega
      · simp only [Expr.weight]
        omega
    | opt e =>
      simp only [Bounded, Expr.bounded, Bool.and_eq_true] at he
      rw [run]
      refine Outcome.orElse_ne_stuck (hcall he.2 (.inr ⟨Nat.le_refl _, ?_⟩)) (by simp)
      simp only [Expr.weight]
      omega
    | neg e =>
      simp only [Bounded, Expr.bounded, Bool.and_eq_true] at he
      have hrun : run g fuel atomic e p ≠ .stuck := by
        refine hcall he.2 (.inr ⟨Nat.le_refl _, ?_⟩)
        simp only [Expr.weight]
        omega
      rw [run]
      split
      · simp
      · simp
      · next h => exact absurd h hrun
    | rep e =>
      have hmore : K.Bounded (.more e) := he
      simp only [Bounded, Expr.bounded, Bool.and_eq_true, Bool.not_eq_true'] at he
      obtain ⟨⟨-, hn⟩, he⟩ := he
      rw [run]
      refine Outcome.orElse_ne_stuck (Outcome.bind_ne_stuck
        (hcall he (.inr ⟨Nat.le_refl _, ?_⟩)) fun ns q hq => Outcome.bind_ne_stuck
          (hcall hmore (.inl (K.length_lt (run_matches hq) hn))) fun _ _ _ => by simp) (by simp)
      simp only [Expr.weight]
      omega
    | more e =>
      have hmore : K.Bounded (.more e) := he
      simp only [Bounded, Expr.bounded, Bool.and_eq_true, Bool.not_eq_true'] at he
      obtain ⟨⟨-, hn⟩, he⟩ := he
      rw [run]
      refine Outcome.orElse_ne_stuck (Outcome.bind_ne_stuck
        (hcall hskip (.inr ⟨Nat.le_refl _, ?_⟩)) fun ks q hq => ?_) (by simp)
      · simp only [Expr.weight]
        omega
      have hle := (run_matches hq).length_le
      refine Outcome.bind_ne_stuck (hcall he (.inr ⟨hle, ?_⟩)) fun ns q' hq' => ?_
      · simp only [Expr.weight]
        omega
      have hlt := K.length_lt (run_matches hq') hn
      exact Outcome.bind_ne_stuck (hcall hmore (.inl (by omega))) fun _ _ _ => by simp
    | skip =>
      rw [run]
      cases atomic with
      | true => simp
      | false => exact hcall K.bounded_trivia (.inr ⟨Nat.le_refl _, K.trivia_weight⟩)

end Ranking

/-- The derivation of a text from a rule, if the rule matches at its beginning. -/
def parse (K : Ranking g) (r : R) (text : List Char) : Option (Node R) :=
  match run g (text.length * (K.bound + 1) + K.rank r + 1) false (.call r) ⟨0, text⟩ with
  | .ok [n] _ => some n
  | _ => none

variable {K : Ranking g} {r : R} {text : List Char}

theorem parse_eq_some {n : Node R} (h : parse K r text = some n) :
    Matches g false (.call r) ⟨0, text⟩ [n] n.stop := by
  unfold parse at h
  split at h
  · next m q hrun =>
    obtain rfl := Option.some.inj h
    have hm := run_matches hrun
    cases hm with
    | call hm => exact .call hm
  · cases h

/-- No derivation is missed for want of fuel. -/
theorem parse_eq_none (h : parse K r text = none) : Fails g false (.call r) ⟨0, text⟩ := by
  have hne : run g (text.length * (K.bound + 1) + K.rank r + 1) false (.call r) ⟨0, text⟩ ≠
      .stuck := by
    refine Ranking.run_ne_stuck (K := K) ?_ ?_
    · exact decide_eq_true (K.rank_le r)
    · exact Nat.lt_succ_self _
  unfold parse at h
  cases hrun : run g (text.length * (K.bound + 1) + K.rank r + 1) false (.call r) ⟨0, text⟩ with
  | stuck => exact absurd hrun hne
  | fail => exact ⟨_, hrun⟩
  | ok ns q =>
    rw [hrun] at h
    have hm := run_matches hrun
    cases hm with
    | call _ => cases h

end Total

end Peg
