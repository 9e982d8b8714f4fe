import Cerebellum.CawWalk
import Cerebellum.Lib.Span

/-! The whole front end: what a program keeps of the text that it is parsed from. -/
namespace Cerebellum.Caw
open Peg

/-- WHITESPACE. -/
def isBlank (c : Char) : Bool := c = ' ' || c = '\t' || c = '\r' || c = '\n'

/-! ### Comments -/

/-- Behind its own line the text is blank. -/
def hidesOwnLine (text : Text) : Bool := (text.dropWhile (· ≠ '\n')).all isBlank

def newlineWord : Text := "NEWLINE".toList

/-- On the first line the word NEWLINE stands, or only blanks stand behind the line up to the next
one or to the end. -/
def LineEnds (text : Text) : Prop :=
  newlineWord <:+: text.takeWhile (· ≠ '\n') ∨
    ∃ blanks rest, text.dropWhile (· ≠ '\n') = blanks ++ rest ∧ blanks.all isBlank ∧
      (rest = [] ∨ newlineWord <+: rest)

/-- A comment hides what stands before the next NEWLINE. -/
theorem comment_text {d c : Node Rule} {text : Text} (h : derive text = some d)
    (hc : c.Within d) (hrule : c.rule = .comment) :
    ∃ u, c.start.rest = '#' :: u ∧ c.start.rest = c.text ++ scanTo newlineWord u := by
  obtain ⟨a, hm⟩ := (parse_eq_some h).within (List.mem_singleton_self d) hc
  have htext := Node.text_append hm.reaches
  have hatomic : (a || isAtomic grammar c.rule) = true := by
    rw [hrule]
    exact Bool.or_true a
  rw [hatomic, hrule] at hm
  obtain ⟨p, _, _, hhash, hrest⟩ := hm.of_atomic_seq
  obtain ⟨⟨u, hu⟩, rfl⟩ := hhash.of_str
  have hscan := hrest.scan
  have hdrop : (c.start.advance "#".toList.length).rest = u := by
    rw [Pos.advance, ← hu]
    rfl
  refine ⟨u, hu.symm, ?_⟩
  rw [hdrop] at hscan
  rw [← show c.stop.rest = scanTo newlineWord u from hscan]
  exact htext

theorem newlineWord_head {c : Char} {u : Text} (h : newlineWord <+: c :: u) : c = 'N' := by
  obtain ⟨v, hv⟩ := h
  exact (List.cons.inj hv).1.symm

theorem scanTo_blanks {blanks rest : Text} (hblanks : blanks.all isBlank)
    (hrest : rest = [] ∨ newlineWord <+: rest) :
    scanTo newlineWord (blanks ++ rest) = rest := by
  rw [scanTo_append, scanTo_self hrest]
  intro v hv hsuffix hprefix
  obtain ⟨c, v, rfl⟩ := List.exists_cons_of_ne_nil hv
  have hc : isBlank c := List.all_eq_true.mp hblanks c (hsuffix.subset (List.mem_cons_self ..))
  rw [newlineWord_head hprefix] at hc
  exact absurd hc (by decide)

/-- The line, and what is hidden behind it. -/
theorem hidesOwnLine_append {line hidden : Text} (hline : ∀ c ∈ line, c ≠ '\n')
    (h : hidden = [] ∨ ∃ v, hidden = '\n' :: v) :
    hidesOwnLine (line ++ hidden) = hidden.all isBlank := by
  rw [hidesOwnLine, Span.dropWhile_append_stop fun c hc => decide_eq_true (hline c hc)]
  rcases h with rfl | ⟨v, rfl⟩
  · simp
  · simp

theorem lineBreak (u : Text) :
    u.dropWhile (· ≠ '\n') = [] ∨ ∃ v, u.dropWhile (· ≠ '\n') = '\n' :: v := by
  have hhead := List.head?_dropWhile_not (· ≠ '\n') u
  cases hu : u.dropWhile (· ≠ '\n') with
  | nil => exact .inl rfl
  | cons c v =>
    rw [hu] at hhead
    obtain rfl : c = '\n' := by simpa using hhead
    exact .inr ⟨v, rfl⟩

section Hidden
variable {text line more : Text}

/-- A word on the line ends the comment there. -/
theorem hidesOwnLine_of_word (hline : ∀ c ∈ line, c ≠ '\n') (hword : newlineWord <:+: line)
    (h : '#' :: (line ++ more) = text ++ scanTo newlineWord (line ++ more)) :
    hidesOwnLine text := by
  obtain ⟨a, b, rfl⟩ := hword
  have hassoc : a ++ newlineWord ++ b ++ more = a ++ (newlineWord ++ (b ++ more)) := by
    simp only [List.append_assoc]
  obtain ⟨x, y, rfl, hscan⟩ :=
    scanTo_of_prefix (l := a) (List.prefix_append newlineWord (b ++ more))
  have htext : text = '#' :: x := by
    rw [hassoc, hscan] at h
    refine List.append_cancel_right (h.symm.trans ?_)
    rw [List.append_assoc, List.cons_append]
  have hno : ∀ c ∈ '#' :: x, c ≠ '\n' :=
    List.forall_mem_cons.mpr ⟨by decide, fun c hc => hline c (by simp [hc])⟩
  rw [htext, hidesOwnLine, List.dropWhile_eq_nil_iff.mpr fun c hc => decide_eq_true (hno c hc)]
  rfl

/-- Without a word on the line the comment goes on up to the next one. -/
theorem text_of_line (hmore : more = [] ∨ ∃ v, more = '\n' :: v) (hword : ¬ newlineWord <:+: line)
    (h : '#' :: (line ++ more) = text ++ scanTo newlineWord (line ++ more)) :
    ∃ hidden, text = '#' :: line ++ hidden ∧ more = hidden ++ scanTo newlineWord more := by
  have hsuffix : scanTo newlineWord more <:+ more := scanTo_suffix more
  obtain ⟨hidden, hhidden⟩ := hsuffix
  rw [scanTo_line (show '\n' ∉ newlineWord by decide) hmore hword] at h
  refine ⟨hidden, List.append_cancel_right (h.symm.trans ?_), hhidden.symm⟩
  rw [List.append_assoc, hhidden, List.cons_append]

end Hidden

/-- A text that is hidden up to the next NEWLINE is blank behind its line, or the line has the
word. -/
theorem hidesOwnLine_iff {text u : Text} (h : '#' :: u = text ++ scanTo newlineWord u) :
    hidesOwnLine text ↔ LineEnds ('#' :: u) := by
  have hsplit : u.takeWhile (· ≠ '\n') ++ u.dropWhile (· ≠ '\n') = u :=
    List.takeWhile_append_dropWhile
  have htake : ('#' :: u).takeWhile (· ≠ '\n') = '#' :: u.takeWhile (· ≠ '\n') := by simp
  have hdrop : ('#' :: u).dropWhile (· ≠ '\n') = u.dropWhile (· ≠ '\n') := by simp
  have hline : ∀ c ∈ u.takeWhile (· ≠ '\n'), c ≠ '\n' := fun c hc => by
    simpa using List.mem_takeWhile_imp hc
  have hmore := lineBreak u
  rw [LineEnds, htake, hdrop]
  generalize u.takeWhile (· ≠ '\n') = line at hsplit hline ⊢
  generalize u.dropWhile (· ≠ '\n') = more at hsplit hmore ⊢
  subst hsplit
  by_cases hword : newlineWord <:+: line
  · exact iff_of_true (hidesOwnLine_of_word hline hword h)
      (.inl (hword.trans (List.suffix_cons '#' line).isInfix))
  · obtain ⟨hidden, rfl, hhidden⟩ := text_of_line hmore hword h
    have hbegin : hidden = [] ∨ ∃ v, hidden = '\n' :: v := by
      cases hidden with
      | nil => exact .inl rfl
      | cons c v =>
        rw [hhidden] at hmore
        obtain ⟨w, hw⟩ := hmore.resolve_left (by simp)
        exact .inr ⟨v, by rw [(List.cons.inj hw).1]⟩
    rw [hidesOwnLine_append (List.forall_mem_cons.mpr ⟨by decide, hline⟩) hbegin]
    constructor
    · exact fun hblank => .inr ⟨hidden, _, hhidden, hblank, scanTo_eq more⟩
    · rintro (hin | ⟨blanks, rest, hrest, hblanks, hnext⟩)
      · rcases List.infix_cons_iff.mp hin with hin | hin
        · exact absurd (newlineWord_head hin) (by decide)
        · exact absurd hin hword
      · have hsame := hhidden.symm.trans hrest
        rw [hrest, scanTo_blanks hblanks hnext] at hsame
        rwa [List.append_cancel_right hsame]

theorem comment_hides {d c : Node Rule} {text : Text} (h : derive text = some d)
    (hc : c.Within d) (hrule : c.rule = .comment) :
    hidesOwnLine c.text ↔ LineEnds c.start.rest := by
  obtain ⟨u, hu, htext⟩ := comment_text h hc hrule
  rw [hu] at htext ⊢
  exact hidesOwnLine_iff htext

/-! ### Programs -/

def statementNodes (d : Node Rule) : List (Node Rule) :=
  (written grammar d).filter (·.rule = .statement)

/-- The program has the statements of the text in their order, saying what they say, and each
comment hides the rest of its own line only. -/
structure KeepsAll (d : Node Rule) (p : Program) : Prop where
  statements : p.statements.map Statement.said = (statementNodes d).map sayStatement
  comments : ∀ c : Node Rule, c.Within d → c.rule = .comment → hidesOwnLine c.text

/-- The result is an error, or a program that keeps all. -/
def DropsNothing (d : Node Rule) (r : CawResult Program) : Prop :=
  ∀ p, r = .ok p → KeepsAll d p

/-- In the statements every call is made on a name, without arguments, and at most one method is
called on what it returns; every comment ends with its line. -/
structure Plain (d : Node Rule) : Prop where
  statements : ∀ n ∈ statementNodes d, AllKept n
  comments : ∀ c : Node Rule, c.Within d → c.rule = .comment → LineEnds c.start.rest

/-- The statement that the parser makes of a node, if it makes one. -/
def parsed (n : Node Rule) : Option Statement := (parseStatement (pair grammar n)).toOption

theorem parsed_eq_some {n : Node Rule} {stmt : Statement} :
    parsed n = some stmt ↔ parseStatement (pair grammar n) = .ok stmt := by
  unfold parsed
  cases parseStatement (pair grammar n) <;> simp [Except.toOption]

theorem parseStatements_pairs {ss : List (Node Rule)} {e : Node Rule}
    (hss : ∀ n ∈ ss, n.Of grammar .statement) (he : e.rule = .eoi) :
    parseStatements (pairs grammar (ss ++ [e])) = ss.filterMap parsed := by
  rw [pairs_eq_map]
  induction ss with
  | nil => simp [parseStatements, he]
  | cons n ss ih =>
    obtain ⟨hn, hss⟩ := List.forall_mem_cons.mp hss
    rw [List.cons_append, List.map_cons, parseStatements, pair_rule, hn.rule, List.filterMap_cons,
      parsed]
    cases parseStatement (pair grammar n) with
    | ok a => exact congrArg (a :: ·) (ih hss)
    | error _ => exact ih hss

/-- A filter passes every member on, as it is, when what it leaves is all there. -/
theorem map_filterMap_eq_map {α β γ : Type} {f : α → Option β} {g : β → γ} {k : α → γ}
    {l : List α} :
    (l.filterMap f).map g = l.map k ↔ ∀ x ∈ l, ∃ y, f x = some y ∧ g y = k x := by
  induction l with
  | nil => simp
  | cons x l ih =>
    rw [List.forall_mem_cons, ← ih, List.map_cons, List.filterMap_cons]
    cases hx : f x with
    | some y => simp
    | none =>
      -- one is missing, and none stands in its place
      refine iff_of_false (fun h => ?_) (by simp)
      have hlen := congrArg List.length h
      have hle := List.length_filterMap_le f l
      simp only [List.length_map, List.length_cons] at hlen
      omega

theorem parsed_said {ss : List (Node Rule)} (hss : ∀ n ∈ ss, n.Of grammar .statement) :
    (ss.filterMap parsed).map Statement.said = ss.map sayStatement ↔ ∀ n ∈ ss, AllKept n := by
  rw [map_filterMap_eq_map]
  refine forall₂_congr fun n hn => ?_
  have hreads := readsStatement (hss n hn)
  rw [ReadsStatement] at hreads
  simp only [← hreads, Says, parsed_eq_some]

/-- What the front end makes of an accepted text. -/
theorem parseProgram_derive (refusal : Text → Text) {text : Text} {d : Node Rule}
    (h : derive text = some d) :
    parseProgram refusal text = .ok ⟨(statementNodes d).filterMap parsed⟩ ∧
      ∀ n ∈ statementNodes d, n.Of grammar .statement := by
  obtain ⟨ss, e, hd, hss, he⟩ := derive_shape h
  have hall : ∀ n ∈ ss, decide (n.rule = .statement) = true := fun n hn =>
    decide_eq_true (hss n hn).rule
  have hnodes : statementNodes d = ss := by
    rw [statementNodes, hd, List.filter_append, List.filter_eq_self.mpr hall]
    simp [he]
  rw [hnodes, parseProgram, h]
  exact ⟨by simp only [pairsOf, hd, parseStatements_pairs hss he], hss⟩

/-- Nothing of an accepted text is dropped exactly when it is plain. -/
theorem dropsNothing_iff (refusal : Text → Text) {text : Text} {d : Node Rule}
    (h : derive text = some d) : DropsNothing d (parseProgram refusal text) ↔ Plain d := by
  obtain ⟨hprogram, hss⟩ := parseProgram_derive refusal h
  have hsaid := parsed_said hss
  constructor
  · intro hdrops
    obtain ⟨hstatements, hlines⟩ := hdrops _ hprogram
    exact ⟨hsaid.mp hstatements, fun c hc hrule =>
      (comment_hides h hc hrule).mp (hlines c hc hrule)⟩
  · rintro ⟨hkept, hlines⟩ p hp
    obtain rfl := Except.ok.inj (hprogram.symm.trans hp)
    exact ⟨hsaid.mpr hkept, fun c hc hrule =>
      (comment_hides h hc hrule).mpr (hlines c hc hrule)⟩

def declared : Text := "type T = String\nlet a = Expert(x.y)\na().run() # twice\n".toList

theorem dropsNothing_declared : ∃ d, derive declared = some d ∧
    (DropsNothing d (parseProgram id declared) ↔ Plain d) := by
  have hsome : (derive declared).isSome := by decide +kernel
  obtain ⟨d, hd⟩ := Option.isSome_iff_exists.mp hsome
  exact ⟨d, hd, dropsNothing_iff id hd⟩

/-- How many arguments a statement gives to the call that it begins with. -/
def Saying.arguments : Saying → Nat
  | .expression (.chain call _) => call.args.length
  | _ => 0

/-- The program has as many arguments as the derivation. -/
def sameArguments : Option (Node Rule) → CawResult Program → Bool
  | some d, .ok p => p.statements.map (Saying.arguments ∘ Statement.said) ==
      (statementNodes d).map (Saying.arguments ∘ sayStatement)
  | _, _ => true

/-- The argument of `f(x)` is dropped. -/
theorem f_x_drops : ∃ d, derive "f(x)".toList = some d ∧
    ¬ DropsNothing d (parseProgram id "f(x)".toList) := by
  have hcount : sameArguments (derive "f(x)".toList) (parseProgram id "f(x)".toList) = false := by
    decide +kernel
  cases hd : derive "f(x)".toList with
  | none =>
    rw [hd] at hcount
    cases hcount
  | some d =>
    refine ⟨d, rfl, fun hdrops => ?_⟩
    cases hp : parseProgram id "f(x)".toList with
    | error e =>
      rw [hd, hp] at hcount
      cases hcount
    | ok p =>
      have hsaid := congrArg (List.map Saying.arguments) (hdrops p hp).statements
      rw [List.map_map, List.map_map] at hsaid
      rw [hd, hp] at hcount
      exact absurd hcount (by simp [sameArguments, hsaid])

end Cerebellum.Caw
