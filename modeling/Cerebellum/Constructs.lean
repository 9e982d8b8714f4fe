import Cerebellum.Seeding

/-! The scanner of `split_clips_constructs`: what a text does to it, and that a source of balanced
forms splits into these forms. -/
namespace Cerebellum.Transpile

/-! ### What a text does to the scanner -/

/-- Where the scanner stands. -/
inductive Place where
  | code
  | comment
  | string
  | escape
  deriving DecidableEq

def Place.next : Place → Char → Place
  | code, c => if c = ';' then comment else if c = '"' then string else code
  | comment, c => if c = '\n' then code else comment
  | string, c => if c = '\\' then escape else if c = '"' then code else string
  | escape, _ => string

/-- Parentheses count in code only. -/
def Place.depth (p : Place) (d : Int) (c : Char) : Int :=
  if p = .code ∧ c = '(' then d + 1 else if p = .code ∧ c = ')' then d - 1 else d

/-- The place and the depth behind a text, unless a construct begins or ends in it: then the depth
comes to zero from above, or leaves it upwards. -/
def pass (p : Place) (d : Int) : Text → Option (Place × Int)
  | [] => some (p, d)
  | c :: u =>
    if 0 < p.depth d c ↔ 0 < d then pass (p.next c) (p.depth d c) u else none

theorem pass_append (p : Place) (d : Int) (u v : Text) :
    pass p d (u ++ v) = (pass p d u).bind fun e => pass e.1 e.2 v := by
  induction u generalizing p d with
  | nil => rfl
  | cons c u ih =>
    rw [List.cons_append, pass, pass]
    split
    · exact ih _ _
    · rfl

theorem pass_trans {p p' : Place} {d d' : Int} {u : Text} (h : pass p d u = some (p', d'))
    (v : Text) : pass p d (u ++ v) = pass p' d' v := by
  rw [pass_append, h, Option.bind_some]

/-- A text either passes, or its first part does and then a construct begins or ends. -/
theorem pass_none {p : Place} {d : Int} {u : Text} (h : pass p d u = none) :
    ∃ x c y p' d', u = x ++ c :: y ∧ pass p d x = some (p', d') ∧
      ¬(0 < p'.depth d' c ↔ 0 < d') := by
  induction u generalizing p d with
  | nil => cases h
  | cons c u ih =>
    rw [Transpile.pass] at h
    split at h
    · next hstays =>
      obtain ⟨x, e, y, p', d', rfl, hx, hc⟩ := ih h
      exact ⟨c :: x, e, y, p', d', rfl, by rw [pass, if_pos hstays, hx], hc⟩
    · next hc => exact ⟨[], c, u, p, d, rfl, rfl, hc⟩

/-- A depth above zero stays above zero. -/
theorem pass_positive {p p' : Place} {d d' : Int} {u : Text} (h : pass p d u = some (p', d')) :
    0 < d' ↔ 0 < d := by
  induction u generalizing p d with
  | nil =>
    obtain ⟨-, rfl⟩ := Prod.mk.inj (Option.some.inj h)
    rfl
  | cons c u ih =>
    rw [Transpile.pass] at h
    split at h
    · next hstays => exact (ih h).trans hstays
    · cases h

/-- From a depth above zero only a construct can end. -/
theorem closes_of_crossing {p : Place} {d : Int} {c : Char} (hd : 0 < d)
    (h : ¬(0 < p.depth d c ↔ 0 < d)) : p = .code ∧ c = ')' ∧ d = 1 := by
  unfold Place.depth at h
  split_ifs at h with hopen hclose
  · omega
  · exact ⟨hclose.1, hclose.2, by omega⟩
  · exact absurd Iff.rfl h

/-- A text that leaves the scanner where it is, at any depth above zero. -/
def Inert (u : Text) : Prop := ∀ d : Int, 0 < d → pass .code d u = some (.code, d)

theorem Inert.append {u v : Text} (hu : Inert u) (hv : Inert v) : Inert (u ++ v) := fun d hd => by
  rw [pass_trans (hu d hd), hv d hd]

/-- A character of no meaning to the scanner. -/
def isPlain (c : Char) : Bool := c != '(' && c != ')' && c != '"' && c != ';'

theorem pass_plain {c : Char} (h : isPlain c) (d : Int) (u : Text) :
    pass .code d (c :: u) = pass .code d u := by
  simp only [isPlain, Bool.and_eq_true, bne_iff_ne] at h
  simp [pass, Place.next, Place.depth, h.1.1.1, h.1.1.2, h.1.2, h.2]

theorem inert_plain {u : Text} (h : ∀ c ∈ u, isPlain c) : Inert u := by
  intro d hd
  induction u with
  | nil => rfl
  | cons c u ih => rw [pass_plain (h c (by simp)), ih fun e he => h e (by simp [he])]

theorem pass_open {d : Int} (h : 0 < d) (u : Text) :
    pass .code d ('(' :: u) = pass .code (d + 1) u := by
  have hdepth : Place.code.depth d '(' = d + 1 := by simp [Place.depth]
  rw [pass, hdepth, if_pos (by omega)]
  rfl

theorem pass_close {d : Int} (h : 1 < d) (u : Text) :
    pass .code d (')' :: u) = pass .code (d - 1) u := by
  have hdepth : Place.code.depth d ')' = d - 1 := by simp [Place.depth]
  rw [pass, hdepth, if_pos (by omega)]
  rfl

theorem Inert.parens {u : Text} (h : Inert u) : Inert ('(' :: u ++ [')']) := by
  intro d hd
  rw [List.cons_append, pass_open hd, pass_trans (h _ (by omega)), pass_close (by omega)]
  simp [pass]

theorem pass_quiet {p : Place} (hp : p ≠ .code) (d : Int) (c : Char) (u : Text) :
    pass p d (c :: u) = pass (p.next c) d u := by
  simp [pass, Place.depth, hp]

theorem Inert.join {us : List Text} (h : ∀ u ∈ us, Inert u) : Inert (Text.join [' '] us) := by
  induction us with
  | nil => exact fun _ _ => rfl
  | cons u us ih =>
    cases us with
    | nil =>
      rw [Text.join_singleton]
      exact h u (by simp)
    | cons v vs =>
      rw [Text.join_cons]
      exact ((h u (by simp)).append (inert_plain (List.all_eq_true.mp (by decide +kernel)))).append
        (ih fun w hw => h w (by simp [hw]))

/-! ### The scanner itself -/

end Cerebellum.Transpile

namespace Cerebellum

open Transpile

namespace ConstructScan

/-- The scanner at a place and a depth. -/
def put (s : ConstructScan) (p : Place) (d : Int) : ConstructScan :=
  { s with
    depth := d
    inComment := p = .comment
    inString := p = .string || p = .escape
    escaped := p = .escape }

/-- The run over one part of a text. -/
def through (s : ConstructScan) (source : Text) (i : Nat) (u : Text) : ConstructScan :=
  (u.zipIdx i).foldl (fun s p => s.step source p.1 p.2) s

theorem through_cons (s : ConstructScan) (source : Text) (i : Nat) (c : Char) (u : Text) :
    s.through source i (c :: u) = (s.step source c i).through source (i + 1) u := rfl

theorem through_append (s : ConstructScan) (source : Text) (i : Nat) (u v : Text) :
    s.through source i (u ++ v) = (s.through source i u).through source (i + u.length) v := by
  rw [through, List.zipIdx_append, List.foldl_append]
  rfl

/-- While no construct begins or ends, only the place and the depth change. A backslash of a string
at the very end of the source would not count as one. -/
theorem step_put {s : ConstructScan} {source : Text} {p : Place} {d : Int} {c : Char} {i : Nat}
    (hlast : p = .string → c = '\\' → i + 1 < source.length) (h : 0 < p.depth d c ↔ 0 < d) :
    (s.put p d).step source c i = s.put (p.next c) (p.depth d c) := by
  cases p with
  | comment =>
    by_cases hc : c = '\n' <;> simp [step, put, Place.next, Place.depth, hc]
  | escape => simp [step, put, Place.next, Place.depth]
  | string =>
    by_cases hc : c = '\\'
    · simp [step, put, Place.next, Place.depth, hc, hlast rfl hc]
    · by_cases hq : c = '"' <;> simp [step, put, Place.next, Place.depth, hc, hq]
  | code =>
    by_cases hsemi : c = ';'
    · simp [step, put, Place.next, Place.depth, hsemi]
    by_cases hq : c = '"'
    · simp [step, put, Place.next, Place.depth, hq]
    by_cases hopen : c = '('
    · subst hopen
      have hd : d ≠ 0 := by
        rintro rfl
        exact absurd (h.mp (by decide)) (by decide)
      simp [step, put, Place.next, Place.depth, hd]
    by_cases hclose : c = ')'
    · subst hclose
      have hd : d - 1 ≠ 0 := by
        intro hd
        have hone : d = 1 := by omega
        subst hone
        exact absurd (h.mpr (by decide)) (by decide)
      simp [step, put, Place.next, Place.depth, hd]
    · simp [step, put, Place.next, Place.depth, hsemi, hq, hopen, hclose]

theorem through_put {s : ConstructScan} {source : Text} {p p' : Place} {d d' : Int} {u : Text}
    {i : Nat} (hlast : i + u.length < source.length ∨ '\\' ∉ u)
    (h : pass p d u = some (p', d')) : (s.put p d).through source i u = s.put p' d' := by
  induction u generalizing p d i with
  | nil =>
    obtain ⟨rfl, rfl⟩ := Prod.mk.inj (Option.some.inj h)
    rfl
  | cons c u ih =>
    rw [Transpile.pass] at h
    split at h
    · next hstays =>
      rw [through_cons, step_put _ hstays]
      · refine ih ?_ h
        rw [List.length_cons] at hlast
        exact hlast.imp (fun hlt => by omega) fun hno hmem => hno (List.mem_cons_of_mem _ hmem)
      · rintro - rfl
        rw [List.length_cons] at hlast
        exact hlast.elim (fun hlt => by omega) fun hno => absurd List.mem_cons_self hno
    · cases h

/-- A construct is only ever added behind the others. -/
theorem step_constructs (s : ConstructScan) (source : Text) (c : Char) (i : Nat) :
    s.constructs <+: (s.step source c i).constructs := by
  unfold step
  dsimp only
  split_ifs <;> try exact List.prefix_rfl
  -- the parenthesis that closes a construct
  cases s.start with
  | none => exact List.prefix_rfl
  | some from_ =>
    dsimp only
    split_ifs
    · exact List.prefix_rfl
    · exact List.prefix_append _ _

theorem through_constructs (s : ConstructScan) (source : Text) (i : Nat) (u : Text) :
    s.constructs <+: (s.through source i u).constructs := by
  induction u generalizing s i with
  | nil => exact List.prefix_rfl
  | cons c u ih => exact (s.step_constructs source c i).trans (ih _ _)

/-! ### Constructs -/

theorem trim_parens (u : Text) : Text.trim ('(' :: u ++ [')']) = '(' :: u ++ [')'] := by
  have hopen : ('(' :: u ++ [')']).dropWhile Text.isWhitespace = '(' :: u ++ [')'] :=
    List.dropWhile_cons_of_neg (by decide)
  rw [Text.trim_eq, hopen, List.rdropWhile_concat_neg _ _ _ (by decide)]

theorem step_open {s : ConstructScan} (source : Text) (i : Nat) :
    (s.put .code 0).step source '(' i = { s with start := some i }.put .code 1 := by
  simp [step, put]

/-- The parenthesis that brings the depth to zero closes the construct that was begun. -/
theorem step_close {s : ConstructScan} {source pre u post : Text}
    (hsource : source = pre ++ ('(' :: u ++ ')' :: post)) (hs : s.start = some pre.length) :
    (s.put .code 1).step source ')' (pre.length + 1 + u.length) =
      { s with start := none, constructs := s.constructs ++ ['(' :: u ++ [')']] }.put .code 0 := by
  have hslice : (source.drop pre.length).take (pre.length + 1 + u.length + 1 - pre.length) =
      '(' :: u ++ [')'] := by
    have hlen : pre.length + 1 + u.length + 1 - pre.length = ('(' :: u ++ [')']).length := by
      simp only [List.length_append, List.length_cons, List.length_nil]
      omega
    have htext : '(' :: u ++ ')' :: post = ('(' :: u ++ [')']) ++ post := by simp
    rw [hsource, List.drop_left, hlen, htext, List.take_left]
  have htrim := trim_parens u
  simp only [List.cons_append] at htrim hslice
  simp [step, put, hs, hslice, htrim]

theorem through_form {s : ConstructScan} {source pre u post : Text}
    (hsource : source = pre ++ ('(' :: u ++ ')' :: post)) (hs : s.start = none)
    (hu : pass .code 1 u = some (.code, 1)) :
    (s.put .code 0).through source pre.length ('(' :: u ++ [')']) =
      { s with constructs := s.constructs ++ ['(' :: u ++ [')']] }.put .code 0 := by
  have hlen : pre.length + 1 + u.length < source.length := by
    simp only [hsource, List.length_append, List.length_cons]
    omega
  rw [List.cons_append, through_cons, step_open, through_append, through_put (.inl hlen) hu, through_cons,
    step_close hsource rfl]
  simp [through, put, hs]

/-- What is closed first is the first construct, whatever comes behind it. -/
theorem first_construct {x y : Text} (hx : pass .code 1 x = some (.code, 1)) :
    ['(' :: x ++ [')']] <+: ((({ start := some 0 } : ConstructScan).put .code 1).through
      ('(' :: (x ++ ')' :: y)) 1 (x ++ ')' :: y)).constructs := by
  have hlen : 1 + x.length < ('(' :: (x ++ ')' :: y)).length := by
    simp only [List.length_cons, List.length_append]
    omega
  have hsource : '(' :: (x ++ ')' :: y) = [] ++ ('(' :: x ++ ')' :: y) := rfl
  have hstart : ({ start := some 0 } : ConstructScan).start = some ([] : Text).length := rfl
  have hclose := step_close hsource hstart
  rw [List.length_nil, Nat.zero_add] at hclose
  rw [through_append, through_put (.inl hlen) hx, through_cons, hclose]
  exact through_constructs (put { constructs := ['(' :: x ++ [')']] } .code 0) _ _ _

end ConstructScan

theorem splitClipsConstructs_eq (source : Text) : splitClipsConstructs (String.ofList source) =
    ((({} : ConstructScan).put .code 0).through source 0 source).constructs.map String.ofList := by
  rw [splitClipsConstructs, String.toList_ofList]
  rfl

/-- A form is one construct exactly when no construct ends inside it and the depth is one again at
its end. -/
theorem split_form_iff (u : Text) :
    splitClipsConstructs (String.ofList ('(' :: u ++ [')'])) =
      [String.ofList ('(' :: u ++ [')'])] ↔ pass .code 1 u = some (.code, 1) := by
  rw [splitClipsConstructs_eq]
  constructor
  · intro h
    have hone : ((({} : ConstructScan).put .code 0).through ('(' :: u ++ [')']) 0
        ('(' :: u ++ [')'])).constructs = ['(' :: u ++ [')']] := by
      refine List.map_injective_iff.mpr (fun a b hab => ?_) h
      exact String.ofList_inj.mp hab
    rw [List.cons_append, ConstructScan.through_cons, ConstructScan.step_open] at hone
    have hearly : ∀ x y, u ++ [')'] = x ++ ')' :: y → pass .code 1 x = some (.code, 1) → y = [] := by
      intro x y hxy hx
      have hfirst := ConstructScan.first_construct (y := y) hx
      rw [← hxy, hone] at hfirst
      have hsame := List.cons.inj (hfirst.eq_of_length rfl)
      simpa [hxy] using hsame.1
    cases hu : pass .code 1 u with
    | none =>
      obtain ⟨x, c, y, p, d, rfl, hx, hcross⟩ := pass_none hu
      obtain ⟨rfl, rfl, rfl⟩ := closes_of_crossing ((pass_positive hx).mpr (by decide)) hcross
      have hnil := hearly x (y ++ [')']) (by simp) hx
      simp at hnil
    | some e =>
      obtain ⟨p, d⟩ := e
      have hlen : 0 + 1 + u.length < ('(' :: (u ++ [')'])).length := by
        simp only [List.length_append, List.length_cons]
        omega
      rw [ConstructScan.through_append, ConstructScan.through_put (.inl hlen) hu] at hone
      by_cases hstays : 0 < p.depth d ')' ↔ 0 < d
      · have hpass : pass p d [')'] = some (p.next ')', p.depth d ')') := by
          rw [Transpile.pass, if_pos hstays, Transpile.pass]
        rw [ConstructScan.through_put (.inr (by decide)) hpass] at hone
        cases hone
      · obtain ⟨rfl, -, rfl⟩ := closes_of_crossing ((pass_positive hu).mpr (by decide)) hstays
        rfl
  · intro h
    have hsource : '(' :: u ++ [')'] = [] ++ ('(' :: u ++ ')' :: []) := rfl
    have hform := ConstructScan.through_form (s := {}) hsource rfl h
    rw [List.length_nil] at hform
    rw [hform]
    rfl

/-! ### Sources of forms -/

/-- A string between its quotes: a backslash takes the character behind it. -/
def isStringBody : Text → Bool
  | [] => true
  | c :: u =>
    if c = '\\' then
      match u with
      | [] => false
      | _ :: u => isStringBody u
    else c != '"' && isStringBody u

/-- What stands between the parentheses of a form. A comment goes to the end of its line. -/
inductive FormBody : Text → Prop
  | nil : FormBody []
  | plain {c : Char} {u : Text} : isPlain c → FormBody u → FormBody (c :: u)
  | string {s u : Text} : isStringBody s → FormBody u → FormBody ('"' :: (s ++ '"' :: u))
  | comment {s u : Text} : '\n' ∉ s → FormBody u → FormBody (';' :: (s ++ '\n' :: u))
  | form {v u : Text} : FormBody v → FormBody u → FormBody ('(' :: (v ++ ')' :: u))

/-- White space and comments between forms. -/
inductive Gap : Text → Prop
  | nil : Gap []
  | blank {c : Char} {u : Text} : Text.isWhitespace c → Gap u → Gap (c :: u)
  | comment {s u : Text} : '\n' ∉ s → Gap u → Gap (';' :: (s ++ '\n' :: u))

/-- A balanced form. -/
structure ClipsForm where
  body : Text
  balanced : FormBody body

def ClipsForm.text (f : ClipsForm) : Text := '(' :: f.body ++ [')']

/-- Forms with gaps in front of them. The comment on the last line may do without a line feed. -/
structure ClipsSource where
  items : List (Text × ClipsForm)
  gaps : ∀ i ∈ items, Gap i.1
  last : Text
  lastGap : Gap last
  lastComment : Option Text
  lastLine : ∀ s ∈ lastComment, '\n' ∉ s

namespace ClipsSource

def forms (src : ClipsSource) : List ClipsForm := src.items.map Prod.snd

def text (src : ClipsSource) : Text :=
  src.items.flatMap (fun i => i.1 ++ i.2.text) ++
    (src.last ++ (src.lastComment.map (';' :: ·)).getD [])

end ClipsSource

theorem pass_comment {s : Text} (hs : '\n' ∉ s) (d : Int) (u : Text) :
    pass .comment d (s ++ '\n' :: u) = pass .code d u := by
  induction s with
  | nil => exact pass_quiet (by decide) d '\n' u
  | cons c s ih =>
    have hc : c ≠ '\n' := fun h => hs (by simp [h])
    rw [List.cons_append, pass_quiet (by decide), Place.next, if_neg hc]
    exact ih fun h => hs (List.mem_cons_of_mem _ h)

theorem pass_string {s : Text} (hs : isStringBody s) (d : Int) (u : Text) :
    pass .string d (s ++ '"' :: u) = pass .code d u := by
  fun_induction isStringBody s with
  | case1 => exact pass_quiet (by decide) d '"' u
  | case2 => cases hs
  | case3 c s ih =>
    rw [List.cons_append, List.cons_append, pass_quiet (by decide), pass_quiet (by decide)]
    exact ih hs
  | case4 c s hc ih =>
    simp only [Bool.and_eq_true, bne_iff_ne] at hs
    rw [List.cons_append, pass_quiet (by decide), Place.next, if_neg hc, if_neg hs.1]
    exact ih hs.2

theorem pass_code {c : Char} (hopen : c ≠ '(') (hclose : c ≠ ')') (d : Int) (u : Text) :
    pass .code d (c :: u) = pass (Place.code.next c) d u := by
  simp [Transpile.pass, Place.depth, hopen, hclose]

/-- A balanced text leaves the scanner where it was. -/
theorem FormBody.inert {u : Text} (h : FormBody u) : Inert u := by
  intro d hd
  induction h generalizing d with
  | nil => rfl
  | plain hc _ ih => rw [pass_plain hc, ih d hd]
  | string hs _ ih =>
    rw [pass_code (by decide) (by decide)]
    exact (pass_string hs d _).trans (ih d hd)
  | comment hs _ ih =>
    rw [pass_code (by decide) (by decide)]
    exact (pass_comment hs d _).trans (ih d hd)
  | form _ _ ihv ihu =>
    rw [pass_open hd, pass_trans (ihv _ (by omega)), pass_close (by omega), Int.add_sub_cancel,
      ihu d hd]

namespace ConstructScan

theorem step_code {s : ConstructScan} {c : Char} (hopen : c ≠ '(') (hclose : c ≠ ')') (source : Text)
    (d : Int) (i : Nat) : (s.put .code d).step source c i = s.put (Place.code.next c) d := by
  have hdepth : Place.code.depth d c = d := by simp [Place.depth, hopen, hclose]
  rw [step_put (fun h => absurd h (by decide)) (by rw [hdepth]), hdepth]

theorem through_line {s : ConstructScan} {l : Text} (hl : '\n' ∉ l) (source : Text) (d : Int) (i : Nat) :
    (s.put .comment d).through source i l = s.put .comment d := by
  induction l generalizing i with
  | nil => rfl
  | cons c l ih =>
    have hc : c ≠ '\n' := fun h => hl (by simp [h])
    rw [through_cons, step_put (fun h => absurd h (by decide)) Iff.rfl, Place.next, if_neg hc]
    exact ih (fun h => hl (List.mem_cons_of_mem _ h)) _

/-- Between forms the scanner stays where it is, to the end of the source. -/
theorem through_gap {s : ConstructScan} {g : Text} (hg : Gap g) (source : Text) (d : Int) (i : Nat) :
    (s.put .code d).through source i g = s.put .code d := by
  induction hg generalizing i with
  | nil => rfl
  | @blank c u hc _ ih =>
    have hne : ∀ e : Char, Text.isWhitespace e = false → c ≠ e := fun e he h => by
      simp [h, he] at hc
    rw [through_cons, step_code (hne '(' (by decide)) (hne ')' (by decide)), Place.next,
      if_neg (hne ';' (by decide)), if_neg (hne '"' (by decide)), ih]
  | @comment l u hl _ ih =>
    rw [through_cons, step_code (by decide) (by decide)]
    change (s.put .comment d).through source _ (l ++ '\n' :: u) = _
    rw [through_append, through_line hl, through_cons, step_put (fun h => absurd h (by decide)) Iff.rfl]
    exact ih _

end ConstructScan

theorem through_items {source pre post : Text} {items : List (Text × ClipsForm)} {s : ConstructScan}
    (hgaps : ∀ i ∈ items, Gap i.1)
    (hsource : source = pre ++ (items.flatMap (fun i : Text × ClipsForm => i.1 ++ i.2.text) ++ post))
    (hs : s.start = none) :
    (s.put .code 0).through source pre.length (items.flatMap fun i : Text × ClipsForm => i.1 ++ i.2.text) =
      { s with constructs := s.constructs ++ items.map fun i : Text × ClipsForm => i.2.text }.put .code 0 := by
  induction items generalizing pre s with
  | nil => simp [ConstructScan.through]
  | cons item items ih =>
    obtain ⟨gap, f⟩ := item
    have hbehind : source = (pre ++ gap) ++
        ('(' :: f.body ++ ')' :: (items.flatMap (fun i : Text × ClipsForm => i.1 ++ i.2.text) ++ post)) := by
      simp [hsource, ClipsForm.text]
    have hrest : source = (pre ++ gap ++ f.text) ++
        (items.flatMap (fun i : Text × ClipsForm => i.1 ++ i.2.text) ++ post) := by
      simp [hsource]
    have hform := ConstructScan.through_form hbehind hs (f.balanced.inert 1 (by decide))
    have htail := ih (s := { s with constructs := s.constructs ++ [f.text] })
      (fun i hi => hgaps i (by simp [hi])) hrest hs
    rw [List.length_append] at hform
    rw [List.flatMap_cons, ConstructScan.through_append, ConstructScan.through_append,
      ConstructScan.through_gap (hgaps _ List.mem_cons_self), ClipsForm.text, hform]
    simpa [ClipsForm.text, Nat.add_assoc] using htail

/-- A source splits into the texts of its forms, in order. -/
theorem split_source (src : ClipsSource) : splitClipsConstructs (String.ofList src.text) =
    src.forms.map fun f => String.ofList f.text := by
  have hsource : src.text = [] ++ (src.items.flatMap (fun i : Text × ClipsForm => i.1 ++ i.2.text) ++
      (src.last ++ (src.lastComment.map (';' :: ·)).getD [])) := rfl
  have hitems := through_items (s := {}) src.gaps hsource rfl
  have hover : ((({} : ConstructScan).put .code 0).through src.text 0
      (src.items.flatMap (fun i : Text × ClipsForm => i.1 ++ i.2.text) ++
        (src.last ++ (src.lastComment.map (';' :: ·)).getD []))).constructs =
      src.items.map fun i => i.2.text := by
    rw [List.length_nil] at hitems
    rw [ConstructScan.through_append, hitems, ConstructScan.through_append,
      ConstructScan.through_gap src.lastGap]
    cases hline : src.lastComment with
    | none => rfl
    | some l =>
      rw [Option.map_some, Option.getD_some, ConstructScan.through_cons,
        ConstructScan.step_code (by decide) (by decide)]
      exact congrArg ConstructScan.constructs
        (ConstructScan.through_line (src.lastLine l (by rw [hline]; rfl)) _ _ _)
  rw [splitClipsConstructs_eq]
  refine (congrArg (List.map String.ofList) hover).trans ?_
  rw [ClipsSource.forms, List.map_map, List.map_map]
  rfl

/-- The forms, one below the other. -/
def ClipsSource.lines (f : ClipsForm) (fs : List ClipsForm) : ClipsSource where
  items := ([], f) :: fs.map (['\n'], ·)
  gaps := by
    intro i hi
    rcases List.mem_cons.mp hi with rfl | hi
    · exact .nil
    · obtain ⟨g, -, rfl⟩ := List.mem_map.mp hi
      exact .blank (by decide) .nil
  last := []
  lastGap := .nil
  lastComment := none
  lastLine := by simp

theorem joinLines_forms (f : ClipsForm) (fs : List ClipsForm) :
    joinLines ((f :: fs).map fun g => String.ofList g.text) =
      String.ofList (ClipsSource.lines f fs).text := by
  have htext : (ClipsSource.lines f fs).text = f.text ++ fs.flatMap fun g => '\n' :: g.text := by
    simp [ClipsSource.text, ClipsSource.lines, List.flatMap_map]
  rw [htext]
  clear htext
  induction fs generalizing f with
  | nil => simp [joinLines, String.intercalate_singleton]
  | cons g fs ih =>
    have hline : "\n" = String.ofList ['\n'] := rfl
    rw [List.map_cons, List.map_cons, joinLines, String.intercalate_cons_cons]
    have hrest := ih g
    rw [List.map_cons, joinLines] at hrest
    rw [hrest, hline, ← String.ofList_append, ← String.ofList_append]
    simp

end Cerebellum
