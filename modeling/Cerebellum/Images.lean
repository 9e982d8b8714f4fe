import Cerebellum.OneForm

/-! The images of Prolog facts in CLIPS: which facts become the same one, and what a relayed retract
removes. -/
namespace Cerebellum.Clips

/-! ### Values of fields -/

/-- The value of a field, with `δ` for the floats. -/
inductive Datum (δ : Type) where
  | symbol (s : Text)
  | instanceName (s : Text)
  | string (s : Text)
  | integer (n : Int)
  | float (x : δ)
  | void
  deriving DecidableEq

/-- A number without point and exponent. -/
def isInteger (s : Text) : Bool :=
  match s.foldl NumberPhase.step .sign with
  | .integral found => found
  | _ => false

/-- `strtoll`, which stops at the bounds. -/
def integerValue (s : Text) : Int :=
  let n : Int :=
    match s with
    | '-' :: d => -(Nat.ofDigitChars 10 d 0 : Int)
    | '+' :: d => Nat.ofDigitChars 10 d 0
    | d => Nat.ofDigitChars 10 d 0
  max (-2 ^ 63) (min (2 ^ 63 - 1) n)

/-- What a token stands for in a fact, with `strtod` for the reading of floats. -/
def Token.datum {δ : Type} (strtod : Text → δ) : Token → Datum δ
  | symbol s => .symbol s
  | instanceName s => .instanceName s
  | string s => .string s
  | number s => if isInteger s then .integer (integerValue s) else .float (strtod s)
  | _ => .void

/-- An ordered fact: its relation and its implied multifield. -/
abbrev Fact (δ : Type) := Text × List (Datum δ)

def assertedFact {δ : Type} (strtod : Text → δ) (u : Text) : Option (Fact δ) :=
  (readFact u).map fun f => (f.1, f.2.map (Token.datum strtod))

/-! ### Queries -/

section Queries
variable {δ : Type} [DecidableEq δ] (strtod : Text → δ)

/-- `eq` on two multifields compares them value by value. -/
def Condition.holds : Condition → List (Datum δ) → Bool
  | all, _ => true
  | implied fields _, ds => ds = fields.map (Token.datum strtod)

/-- The facts that are left: those of the template that meet the condition are retracted. -/
def Query.run (q : Query) (facts : List (Fact δ)) : List (Fact δ) :=
  facts.filter fun f => !(decide (f.1 = q.template) && q.condition.holds strtod f.2)

theorem Query.run_all (r : Text) (facts : List (Fact δ)) :
    Query.run strtod ⟨r, .all⟩ facts = facts.filter fun f => f.1 ≠ r := by
  rw [Query.run]
  refine List.filter_congr fun f _ => ?_
  simp [Condition.holds]

theorem Query.run_implied (r : Text) (fields : List Token) (h : ∀ t ∈ fields, t.isConstant)
    (facts : List (Fact δ)) : Query.run strtod ⟨r, .implied fields h⟩ facts =
      facts.filter fun f => f ≠ (r, fields.map (Token.datum strtod)) := by
  rw [Query.run]
  refine List.filter_congr fun f _ => ?_
  obtain ⟨s, ds⟩ := f
  simp [Condition.holds, Prod.mk.injEq]

end Queries

end Cerebellum.Clips

namespace Cerebellum.Transpile
open Clips

section Images
variable {φ : Type} {F : FloatText φ}

/-- The fact that asserting the relayed text adds. CLIPS and Rust read the same float. -/
def image (F : FloatText φ) (s : Text) : Option (Fact (Option φ)) :=
  match prologToClipsFact F s with
  | .ok fact => assertedFact F.parse fact
  | .error _ => none

theorem readFact_form {t : Term φ} (hc : isCallable t) (hg : termIsGround t) {r : Text}
    (hr : IsField (clipsSymbolForFunctor (termFunctorName t)) (.symbol r)) :
    readFact (renderClipsFact F t) =
      if isRelation r then some (r, (arguments t).map (fieldToken F)) else none := by
  have hnone := ground_not_var hg
  have hscan : scan (renderClipsFact F t) =
      .lparen :: .symbol r :: (arguments t).map (fieldToken F) ++ [.rparen] := by
    cases t with
    | atom s => exact scan_form_nil hr
    | compound functor args => exact scan_form hr (fields_of_args fun x hx => absurd hx (hnone x))
    | _ => cases hc
  have hts : ∀ f ∈ (arguments t).map (fieldToken F), f.isConstant := by
    intro f hf
    obtain ⟨a, ha, rfl⟩ := List.mem_map.mp hf
    exact fieldToken_isConstant fun x hx => hnone x (hx ▸ ha)
  rw [readFact, hscan]
  simp only [List.cons_append, closed_append hts]
  rfl

theorem image_eq {s : Text} {t : Term φ} (hparse : parsePrologTerm F s = .ok t) (hc : isCallable t)
    (hg : termIsGround t) {r : Text}
    (hr : IsField (clipsSymbolForFunctor (termFunctorName t)) (.symbol r)) :
    image F s = if isRelation r then
        some (r, (arguments t).map fun a => (fieldToken F a).datum F.parse)
      else none := by
  have hfact : prologToClipsFact F s = .ok (renderClipsFact F t) := by
    rw [prologToClipsFact, hparse]
    rfl
  rw [image, hfact]
  simp only [assertedFact, readFact_form hc hg hr]
  split
  · simp
  · rfl

/-! ### Different facts -/

/-- The text of an argument that is written as a string: a string, an atom that is no simple symbol,
or a compound. -/
def stringText (F : FloatText φ) : Term φ → Option Text
  | .atom s => if isSimpleClipsSymbol s then none else some s
  | .str s => some s
  | .compound functor args =>
    some (functor ++ '(' :: Text.join [','] (renderClipsFields F args) ++ [')'])
  | _ => none

/-- Two arguments that are one field: they are the same, or the same string. -/
def SameField (F : FloatText φ) (a b : Term φ) : Prop :=
  a = b ∨ ∃ x, stringText F a = some x ∧ stringText F b = some x

/-- An argument that keeps its type: an atom written bare does not look like a number, and a float
is written with a point. -/
def TypedArg (F : FloatText φ) : Term φ → Prop
  | .atom s => isSimpleClipsSymbol s → isSymbol s
  | .float f => '.' ∈ F.display f
  | _ => True

def argDatum (F : FloatText φ) (a : Term φ) : Datum (Option φ) :=
  match stringText F a, a with
  | some x, _ => .string x
  | none, .atom s => .symbol s
  | none, .integer n => .integer n.toInt
  | none, .float f => .float (some f)
  | none, _ => .void

theorem bare_number {s : Text} (hn : isNumber s) (hs : ∃ c ∈ s.head?, c = '-' ∨ c.isDigit) :
    bare s = .number s := by
  obtain ⟨c, hc, hfirst⟩ := hs
  cases s with
  | nil => cases hc
  | cons d s =>
    obtain rfl : d = c := Option.some.inj hc
    rcases hfirst with rfl | hdigit
    · simp [bare, bareToken, hn]
    · simp [bare, bareToken, hn, hdigit]

theorem foldl_signed (minus : Bool) {digits : Text} (hne : digits ≠ [])
    (hdigits : ∀ c ∈ digits, c.isDigit) :
    ((if minus then ['-'] else []) ++ digits).foldl NumberPhase.step .sign = .integral true := by
  have hnone : ((none : Option Char).toList ++ digits).foldl NumberPhase.step .sign =
      .integral true := foldl_integer (by simp) hne hdigits
  have hsome : ((some '-').toList ++ digits).foldl NumberPhase.step .sign = .integral true :=
    foldl_integer (by simp) hne hdigits
  cases minus with
  | true => exact hsome
  | false => exact hnone

theorem signed_head (minus : Bool) {digits : Text} (hne : digits ≠ [])
    (hdigits : ∀ c ∈ digits, c.isDigit) (u : Text) :
    ∃ c ∈ ((if minus then ['-'] else []) ++ digits ++ u).head?, c = '-' ∨ c.isDigit := by
  cases minus with
  | true => exact ⟨'-', rfl, .inl rfl⟩
  | false =>
    cases digits with
    | nil => exact absurd rfl hne
    | cons c digits => exact ⟨c, rfl, .inr (hdigits c (by simp))⟩

theorem integerValue_signed (minus : Bool) {digits : Text} (hne : digits ≠ [])
    (hdigits : ∀ c ∈ digits, c.isDigit) :
    integerValue ((if minus then ['-'] else []) ++ digits) = max (-2 ^ 63) (min (2 ^ 63 - 1)
      (if minus then -(Nat.ofDigitChars 10 digits 0 : Int) else Nat.ofDigitChars 10 digits 0)) := by
  cases minus with
  | true => rfl
  | false =>
    cases digits with
    | nil => exact absurd rfl hne
    | cons c digits =>
      have hdigit := hdigits c (by simp)
      simp only [Bool.false_eq_true, if_false, List.nil_append, integerValue]
      split
      · next heq =>
        rw [(List.cons.inj heq).1] at hdigit
        cases hdigit
      · next heq =>
        rw [(List.cons.inj heq).1] at hdigit
        cases hdigit
      · rfl

/-- An integer is read back by CLIPS as itself. -/
theorem datum_integer (k : Int64) :
    (fieldToken F (.integer k)).datum F.parse = .integer k.toInt := by
  have hdigits : ∀ c ∈ Nat.toDigits 10 k.toInt.natAbs, c.isDigit :=
    fun c hc => Nat.isDigit_of_mem_toDigits (by decide) (by decide) hc
  have hne : Nat.toDigits 10 k.toInt.natAbs ≠ [] := Nat.toDigits_ne_nil
  have hlt := k.toInt_lt
  have hle := k.le_toInt
  have hfold := foldl_signed (decide (k.toInt < 0)) hne hdigits
  have hhead := signed_head (decide (k.toInt < 0)) hne hdigits []
  have hvalue := integerValue_signed (decide (k.toInt < 0)) hne hdigits
  rw [List.append_nil] at hhead
  rw [← i64Text_eq] at hfold hhead hvalue
  have hnumber : bare (i64Text k) = .number (i64Text k) :=
    bare_number (by rw [isNumber, hfold]) hhead
  have hinteger : isInteger (i64Text k) = true := by rw [isInteger, hfold]
  rw [fieldToken, hnumber, Token.datum, if_pos hinteger, hvalue, Nat.ofDigitChars_ten_toDigits]
  by_cases hneg : k.toInt < 0
  · simp only [hneg, decide_true, if_true, Datum.integer.injEq]
    omega
  · simp only [hneg, decide_false, Bool.false_eq_true, if_false, Datum.integer.injEq]
    omega

/-- A float that is displayed with a point is read back as itself. -/
theorem datum_float {f : φ} (h : '.' ∈ F.display f) :
    (fieldToken F (.float f)).datum F.parse = .float (some f) := by
  obtain ⟨minus, whole, frac, htext, hwhole, hfrac, hne, hparse⟩ := F.display_point f h
  have hphase : (F.display f).foldl NumberPhase.step .sign = .decimal true := by
    have hstep : ∀ ds : Text, (∀ c ∈ ds, c.isDigit) →
        ds.foldl NumberPhase.step (.decimal true) = .decimal true := by
      intro ds hds
      induction ds with
      | nil => rfl
      | cons d ds ih =>
        have hd : NumberPhase.step (.decimal true) d = .decimal true := by
          simp [NumberPhase.step, hds d (by simp)]
        rw [List.foldl_cons, hd]
        exact ih fun c hc => hds c (by simp [hc])
    rw [htext, List.foldl_append, foldl_signed minus hne hwhole, List.foldl_cons]
    exact hstep frac hfrac
  have hhead := signed_head minus hne hwhole ('.' :: frac)
  rw [← htext] at hhead
  have hnumber : bare (F.display f) = .number (F.display f) :=
    bare_number (by rw [isNumber, hphase]) hhead
  have hinteger : ¬ isInteger (F.display f) = true := by simp [isInteger, hphase]
  rw [fieldToken, hnumber, Token.datum, if_neg hinteger, hparse]

/-- A bare atom that does not look like a number stays a symbol. -/
theorem datum_symbol {s : Text} (hs : isSimpleClipsSymbol s) (h : isSymbol s) :
    (fieldToken F (.atom s)).datum F.parse = .symbol s := by
  obtain ⟨hne, hsimple⟩ := simple_of_symbol hs
  have hbare := isField_simple hne hsimple ' ' [] (.inl rfl)
  rw [isField_symbol h ' ' [] (.inl rfl)] at hbare
  rw [fieldToken, if_pos hs, ← (List.cons.inj hbare).1]
  rfl

theorem datum_fieldToken {a : Term φ} (h : TypedArg F a) (hg : termIsGround a) :
    (fieldToken F a).datum F.parse = argDatum F a := by
  cases a with
  | atom s =>
    by_cases hs : isSimpleClipsSymbol s = true
    · rw [datum_symbol hs (h hs)]
      simp [argDatum, stringText, hs]
    · rw [fieldToken, if_neg hs]
      simp [argDatum, stringText, hs, Token.datum]
  | var x => cases hg
  | integer k => exact datum_integer k
  | float f => exact datum_float h
  | str s => rfl
  | compound functor args => rfl

theorem argDatum_string {a : Term φ} {x : Text} :
    argDatum F a = .string x ↔ stringText F a = some x := by
  unfold argDatum
  split
  · next h => simp [h]
  · next h => simp [h]
  · next h => simp [h]
  · next h => simp [h]
  · next h => simp [h]

theorem stringText_eq_none {a : Term φ} (h : stringText F a = none) (hg : termIsGround a) :
    (∃ s, a = .atom s ∧ argDatum F a = .symbol s) ∨
      (∃ k : Int64, a = .integer k ∧ argDatum F a = .integer k.toInt) ∨
      ∃ f, a = .float f ∧ argDatum F a = .float (some f) := by
  cases a with
  | atom s => exact .inl ⟨s, rfl, by simp [argDatum, h]⟩
  | var x => cases hg
  | integer k => exact .inr (.inl ⟨k, rfl, rfl⟩)
  | float f => exact .inr (.inr ⟨f, rfl, rfl⟩)
  | str s => cases h
  | compound functor args => cases h

/-- Two ground arguments have one value exactly when they are the same field. -/
theorem argDatum_eq_iff {a b : Term φ} (ha : termIsGround a) (hb : termIsGround b) :
    argDatum F a = argDatum F b ↔ SameField F a b := by
  constructor
  · intro h
    cases hx : stringText F a with
    | some x =>
      have hax : argDatum F a = .string x := argDatum_string.mpr hx
      exact .inr ⟨x, hx, argDatum_string.mp (h.symm.trans hax)⟩
    | none =>
      have hy : stringText F b = none := by
        cases hy : stringText F b with
        | none => rfl
        | some y =>
          have hby : argDatum F b = .string y := argDatum_string.mpr hy
          rw [argDatum_string.mp (h.trans hby)] at hx
          cases hx
      left
      -- three kinds of values are left, and none of them is another
      rcases stringText_eq_none hx ha with ⟨s, rfl, hd⟩ | ⟨k, rfl, hd⟩ | ⟨f, rfl, hd⟩ <;>
        rcases stringText_eq_none hy hb with ⟨s', rfl, hd'⟩ | ⟨k', rfl, hd'⟩ | ⟨f', rfl, hd'⟩ <;>
        simp only [hd, hd', Datum.symbol.injEq, Datum.integer.injEq, Datum.float.injEq,
          reduceCtorEq] at h
      · rw [h]
      · rw [Int64.toInt_inj.mp h]
      · rw [Option.some.inj h]
  · rintro (rfl | ⟨x, hx, hy⟩)
    · rfl
    · rw [argDatum_string.mpr hx, argDatum_string.mpr hy]

/-- The functor, its spaces replaced, is a relation name for CLIPS. -/
def HasRelation (t : Term φ) : Prop :=
  isSymbol (clipsSymbolForFunctor (termFunctorName t)) ∧
    isRelation (clipsSymbolForFunctor (termFunctorName t))

instance (t : Term φ) : Decidable (HasRelation t) := inferInstanceAs (Decidable (_ ∧ _))

theorem image_of_relation {s : Text} {t : Term φ} (hparse : parsePrologTerm F s = .ok t)
    (hc : isCallable t) (hg : termIsGround t) (hr : HasRelation t)
    (hargs : ∀ a ∈ arguments t, TypedArg F a) :
    image F s =
      some (clipsSymbolForFunctor (termFunctorName t), (arguments t).map (argDatum F)) := by
  rw [image_eq hparse hc hg (isField_symbol hr.1), if_pos hr.2]
  congr 2
  exact List.map_congr_left fun a ha => datum_fieldToken (hargs a ha) (ground_arguments hg a ha)

/-- Two facts become the same one in CLIPS exactly when their functors differ in no more than spaces
and underscores, and their arguments agree one by one up to being the same string. -/
theorem same_image_iff {s s' : Text} {t t' : Term φ} (hparse : parsePrologTerm F s = .ok t)
    (hparse' : parsePrologTerm F s' = .ok t') (hc : isCallable t) (hc' : isCallable t')
    (hg : termIsGround t) (hg' : termIsGround t') (hr : HasRelation t) (hr' : HasRelation t')
    (hargs : ∀ a ∈ arguments t, TypedArg F a) (hargs' : ∀ a ∈ arguments t', TypedArg F a) :
    (image F s).isSome ∧ (image F s').isSome ∧ (image F s = image F s' ↔
      clipsSymbolForFunctor (termFunctorName t) = clipsSymbolForFunctor (termFunctorName t') ∧
        List.Forall₂ (SameField F) (arguments t) (arguments t')) := by
  have hfields : ∀ as bs : List (Term φ), (∀ a ∈ as, termIsGround a) → (∀ b ∈ bs, termIsGround b) →
      (as.map (argDatum F) = bs.map (argDatum F) ↔ List.Forall₂ (SameField F) as bs) := by
    intro as bs has hbs
    induction as generalizing bs with
    | nil => cases bs <;> simp
    | cons a as ih =>
      cases bs with
      | nil => simp
      | cons b bs =>
        rw [List.map_cons, List.map_cons, List.cons.injEq, List.forall₂_cons,
          argDatum_eq_iff (has a (by simp)) (hbs b (by simp)),
          ih bs (fun x hx => has x (by simp [hx])) fun x hx => hbs x (by simp [hx])]
  have himage := image_of_relation hparse hc hg hr hargs
  have himage' := image_of_relation hparse' hc' hg' hr' hargs'
  refine ⟨by rw [himage]; rfl, by rw [himage']; rfl, ?_⟩
  rw [himage, himage', Option.some.injEq, Prod.mk.injEq, hfields _ _ (ground_arguments hg)
    (ground_arguments hg')]

/-! ### What a retract removes -/

/-- Evaluating the relayed retract on a set of facts leaves the second one. -/
def Retracts [DecidableEq φ] (F : FloatText φ) (s : Text) (facts facts' : List (Fact (Option φ))) :
    Prop :=
  ∃ expr q, prologToClipsRetract F s = .ok expr ∧ ReadsQuery expr q ∧ facts' = q.run F.parse facts

/-- The retract of a term with arguments removes its image and nothing else; that of an atom, or
of a compound without arguments, removes all facts of the relation. -/
theorem retracts_iff [DecidableEq φ] {s : Text} {t : Term φ} {f : Fact (Option φ)}
    (hparse : parsePrologTerm F s = .ok t) (hc : isCallable t) (hg : termIsGround t)
    (hone : IsOneSymbol (clipsSymbolForFunctor (termFunctorName t))) (himage : image F s = some f)
    (facts facts' : List (Fact (Option φ))) :
    Retracts F s facts facts' ↔ facts' =
      if (arguments t).isEmpty then facts.filter fun g => g.1 ≠ f.1
      else facts.filter fun g => g ≠ f := by
  obtain ⟨r, hr⟩ := hone.isField
  have hf : f = (r, (arguments t).map fun a => (fieldToken F a).datum F.parse) := by
    rw [image_eq hparse hc hg hr] at himage
    split at himage
    · exact (Option.some.inj himage).symm
    · cases himage
  have hexpr : prologToClipsRetract F s = .ok (renderClipsRetract F t) := by
    rw [prologToClipsRetract, hparse]
    rfl
  obtain ⟨c, hcond, hquery⟩ := readsQuery_renderClipsRetract (F := F) hc hr
  have hrun : Query.run F.parse ⟨r, c⟩ facts =
      if (arguments t).isEmpty then facts.filter fun g => g.1 ≠ f.1
      else facts.filter fun g => g ≠ f := by
    have hground : termsAreGround (arguments t) = true :=
      (termsAreGround_iff _).mpr (ground_arguments hg)
    rw [retractCondition, hground, Bool.and_true] at hcond
    cases hempty : (arguments t).isEmpty with
    | true =>
      simp only [hempty, Bool.not_true, Bool.false_eq_true, if_false] at hcond
      rw [hcond, Query.run_all, if_pos rfl, hf]
    | false =>
      simp only [hempty, Bool.not_false, if_true] at hcond
      obtain ⟨hts, rfl⟩ := hcond
      rw [Query.run_implied, if_neg (by simp), hf, List.map_map]
      rfl
  constructor
  · rintro ⟨expr, q, hexpr', hq, rfl⟩
    rw [hexpr] at hexpr'
    rw [← hrun, ← Except.ok.inj hexpr'] at *
    rw [hquery.unique hq]
  · rintro rfl
    exact ⟨_, _, hexpr, hquery, hrun.symm⟩

end Images

/-- `f('New York', 5)` and `f("New York", 5)`: one fact. -/
theorem city_same_image :
    let s := "f('New York', 5)".toList
    let s' := "f(\"New York\", 5)".toList
    let t : Term Empty := .compound ['f'] [.atom "New York".toList, .integer 5]
    let t' : Term Empty := .compound ['f'] [.str "New York".toList, .integer 5]
    parsePrologTerm noFloats s = .ok t ∧ parsePrologTerm noFloats s' = .ok t' ∧
      (image noFloats s).isSome ∧ (image noFloats s').isSome ∧
      (image noFloats s = image noFloats s' ↔
        clipsSymbolForFunctor (termFunctorName t) = clipsSymbolForFunctor (termFunctorName t') ∧
          List.Forall₂ (SameField noFloats) (arguments t) (arguments t')) := by
  intro s s' t t'
  have hparse : parsePrologTerm noFloats s = .ok t := by decide +kernel
  have hparse' : parsePrologTerm noFloats s' = .ok t' := by decide +kernel
  have hspace : ¬ isSimpleClipsSymbol "New York".toList = true := by decide
  refine ⟨hparse, hparse',
    same_image_iff hparse hparse' rfl rfl rfl rfl (by decide) (by decide) ?_ ?_⟩
  · simp only [t, arguments, List.forall_mem_cons, List.not_mem_nil, false_imp_iff, implies_true,
      and_true]
    exact ⟨fun h => absurd h hspace, trivial⟩
  · simp only [t', arguments, List.forall_mem_cons, List.not_mem_nil, false_imp_iff, implies_true,
      and_true]
    exact ⟨trivial, trivial⟩

/-- `f(g(a))` and `f("g(a)")` are different terms and the same fact. -/
theorem nested_compound_merged :
    ¬ ∀ (s s' : Text) (t t' : Term Empty), parsePrologTerm noFloats s = .ok t →
      parsePrologTerm noFloats s' = .ok t' → isCallable t → isCallable t' → termIsGround t →
      termIsGround t' → t ≠ t' → image noFloats s ≠ image noFloats s' := by
  intro h
  have hparse : parsePrologTerm noFloats "f(g(a))".toList =
      .ok (.compound ['f'] [.compound ['g'] [.atom ['a']]]) := by decide +kernel
  have hparse' : parsePrologTerm noFloats "f(\"g(a)\")".toList =
      .ok (.compound ['f'] [.str "g(a)".toList]) := by decide +kernel
  exact h _ _ _ _ hparse hparse' rfl rfl rfl rfl (by decide) (by decide +kernel)

/-- The retract of `parent(tom, bob)` leaves the fact of `parent(tom)`. -/
theorem parent_retracted :
    let s := "parent(tom, bob)".toList
    let t : Term Empty := .compound "parent".toList [.atom "tom".toList, .atom "bob".toList]
    let f : Fact (Option Empty) := ("parent".toList, [.symbol "tom".toList, .symbol "bob".toList])
    let g : Fact (Option Empty) := ("parent".toList, [.symbol "tom".toList])
    parsePrologTerm noFloats s = .ok t ∧ image noFloats s = some f ∧
      (Retracts noFloats s [f, g] [g] ↔ [g] =
        if (arguments t).isEmpty then [f, g].filter fun h => h.1 ≠ f.1
        else [f, g].filter fun h => h ≠ f) := by
  intro s t f g
  have hparse : parsePrologTerm noFloats s = .ok t := by decide +kernel
  have himage : image noFloats s = some f := by decide +kernel
  have hone : IsOneSymbol (clipsSymbolForFunctor (termFunctorName t)) :=
    ⟨[], "parent".toList, [], rfl, rfl, by decide, rfl⟩
  exact ⟨hparse, himage, retracts_iff hparse rfl rfl hone himage [f, g] [g]⟩

/-- Retracting `foo` removes the fact of `foo(a)` as well. -/
theorem atom_retracts_all :
    ¬ ∀ (s : Text) (t : Term Empty) (f : Fact (Option Empty)) (facts facts' : List (Fact _)),
      parsePrologTerm noFloats s = .ok t → isCallable t → termIsGround t →
      image noFloats s = some f → facts.Nodup →
      (∀ g ∈ facts, ∃ s' t', parsePrologTerm noFloats s' = .ok t' ∧ isCallable t' ∧
        termIsGround t' ∧ image noFloats s' = some g) →
      Retracts noFloats s facts facts' → facts' = facts.filter fun g => g ≠ f := by
  intro h
  let f : Fact (Option Empty) := ("foo".toList, [])
  let g : Fact (Option Empty) := ("foo".toList, [.symbol ['a']])
  have hparse : parsePrologTerm noFloats "foo".toList = .ok (.atom "foo".toList) := by
    decide +kernel
  have hparse' : parsePrologTerm noFloats "foo(a)".toList =
      .ok (.compound "foo".toList [.atom ['a']]) := by decide +kernel
  have hf : image noFloats "foo".toList = some f := by decide +kernel
  have hg : image noFloats "foo(a)".toList = some g := by decide +kernel
  have hretract : Retracts noFloats "foo".toList [f, g] [] := by
    refine ⟨"(do-for-all-facts ((?f foo)) TRUE (retract ?f))".toList,
      ⟨"foo".toList, .all⟩, ?_, ?_, ?_⟩
    · rw [prologToClipsRetract, hparse]
      rfl
    · change scan _ = _
      decide +kernel
    · decide
  have hfacts : ∀ x ∈ [f, g], ∃ s' t', parsePrologTerm noFloats s' = .ok t' ∧ isCallable t' ∧
      termIsGround t' ∧ image noFloats s' = some x := by
    simp only [List.forall_mem_cons, List.not_mem_nil, false_imp_iff, implies_true, and_true]
    exact ⟨⟨_, _, hparse, rfl, rfl, hf⟩, ⟨_, _, hparse', rfl, rfl, hg⟩⟩
  have hall := h _ _ f [f, g] [] hparse rfl rfl hf (by decide) hfacts hretract
  exact absurd hall (by decide)

end Cerebellum.Transpile
