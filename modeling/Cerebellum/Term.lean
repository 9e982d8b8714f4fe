import Cerebellum.Json

/-! Ground Prolog data as the caws predicates see it, and its exchange with JSON text by
`json_read_dict/3` and `atom_json_dict/3`. -/
namespace Cerebellum

/-- Atoms and strings are different terms although both are written as JSON strings. The
tag of a dict is left out: every dict of the program has an unbound one. -/
inductive Term where
  | atom (s : String)
  | string (s : String)
  | num (mantissa : Int) (exponent : Nat)
  | list (xs : List Term)
  | dict (fields : List (String × Term))
  deriving Inhabited

abbrev Dict := List (String × Term)

namespace Term

mutual
def decEq : (a b : Term) → Decidable (a = b)
  | .atom a, .atom b => decidable_of_iff (a = b) (by simp)
  | .string a, .string b => decidable_of_iff (a = b) (by simp)
  | .num m e, .num m' e' => decidable_of_iff (m = m' ∧ e = e') (by simp)
  | .list a, .list b => letI := decEqList a b; decidable_of_iff (a = b) (by simp)
  | .dict a, .dict b => letI := decEqDict a b; decidable_of_iff (a = b) (by simp)
  | .atom _, .string _ | .atom _, .num _ _ | .atom _, .list _ | .atom _, .dict _
  | .string _, .atom _ | .string _, .num _ _ | .string _, .list _ | .string _, .dict _
  | .num _ _, .atom _ | .num _ _, .string _ | .num _ _, .list _ | .num _ _, .dict _
  | .list _, .atom _ | .list _, .string _ | .list _, .num _ _ | .list _, .dict _
  | .dict _, .atom _ | .dict _, .string _ | .dict _, .num _ _ | .dict _, .list _ =>
    isFalse (by simp)
def decEqList : (a b : List Term) → Decidable (a = b)
  | [], [] => isTrue rfl
  | [], _ :: _ | _ :: _, [] => isFalse (by simp)
  | x :: xs, y :: ys =>
    letI := decEq x y
    letI := decEqList xs ys
    decidable_of_iff (x = y ∧ xs = ys) (by simp)
def decEqDict : (a b : Dict) → Decidable (a = b)
  | [], [] => isTrue rfl
  | [], _ :: _ | _ :: _, [] => isFalse (by simp)
  | (k, x) :: xs, (l, y) :: ys =>
    letI := decEq x y
    letI := decEqDict xs ys
    decidable_of_iff (k = l ∧ x = y ∧ xs = ys) (by simp [and_assoc])
end

instance : DecidableEq Term := decEq

mutual
/-- `json_read_dict/3`: strings stay strings, the three constants become atoms. -/
def ofJson : Json → Term
  | .null => .atom "null"
  | .bool true => .atom "true"
  | .bool false => .atom "false"
  | .num m e => .num m e
  | .str s => .string s
  | .arr xs => .list (ofJsons xs)
  | .obj m => .dict (ofFields m)
def ofJsons : List Json → List Term
  | [] => []
  | x :: xs => ofJson x :: ofJsons xs
def ofFields : Fields → Dict
  | [] => []
  | (k, v) :: m => (k, ofJson v) :: ofFields m
end

mutual
/-- `atom_json_dict/3` in writing direction. -/
def toJson : Term → Json
  | .atom s =>
    if s = "null" then .null
    else if s = "true" then .bool true
    else if s = "false" then .bool false
    else .str s
  | .string s => .str s
  | .num m e => .num m e
  | .list xs => .arr (toJsons xs)
  | .dict m => .obj (toFields m)
def toJsons : List Term → List Json
  | [] => []
  | x :: xs => toJson x :: toJsons xs
def toFields : Dict → Fields
  | [] => []
  | (k, v) :: m => (k, toJson v) :: toFields m
end

/-- `(string(T0) -> atom_string(T, T0) ; T = T0)`. -/
def normalize : Term → Term
  | .string s => .atom s
  | t => t

mutual
theorem toJson_ofJson : (j : Json) → (ofJson j).toJson = j
  | .null => by simp [ofJson, toJson]
  | .bool true => by simp [ofJson, toJson]
  | .bool false => by simp [ofJson, toJson]
  | .num m e => by simp [ofJson, toJson]
  | .str s => by simp [ofJson, toJson]
  | .arr xs => by simp [ofJson, toJson, toJsons_ofJsons xs]
  | .obj m => by simp [ofJson, toJson, toFields_ofFields m]
theorem toJsons_ofJsons : (xs : List Json) → toJsons (ofJsons xs) = xs
  | [] => by simp [ofJsons, toJsons]
  | x :: xs => by simp [ofJsons, toJsons, toJson_ofJson x, toJsons_ofJsons xs]
theorem toFields_ofFields : (m : Fields) → toFields (ofFields m) = m
  | [] => by simp [ofFields, toFields]
  | (k, v) :: m => by simp [ofFields, toFields, toJson_ofJson v, toFields_ofFields m]
end

/-- A correlation id as the caches key it. -/
def IsCid (t : Term) : Prop := ∃ j, t = (ofJson j).normalize

/-- Such an id survives being written as JSON and read back. -/
theorem IsCid.normalize_ofJson {t : Term} (h : t.IsCid) : (ofJson t.toJson).normalize = t := by
  obtain ⟨j, rfl⟩ := h
  have hj := toJson_ofJson j
  cases j with
  | str x =>
    simp only [ofJson, normalize, toJson]
    split_ifs with h1 h2 h3 <;> simp [ofJson, *]
  | bool b => cases b <;> rfl
  | null => rfl
  | num m e => rfl
  | arr xs => exact congrArg (fun j => (ofJson j).normalize) hj
  | obj m => exact congrArg (fun j => (ofJson j).normalize) hj

theorem IsCid.toJson_inj {s t : Term} (hs : s.IsCid) (ht : t.IsCid) (h : s.toJson = t.toJson) :
    s = t := by
  rw [← hs.normalize_ofJson, ← ht.normalize_ofJson, h]

theorem isCid_atom (s : String) : IsCid (.atom s) := ⟨.str s, rfl⟩

theorem get_ofFields (k : String) (m : Fields) :
    Fields.get k (ofFields m) = (Fields.get k m).map ofJson := by
  induction m with
  | nil => simp [ofFields]
  | cons e m ih =>
    obtain ⟨l, v⟩ := e
    by_cases hl : l = k <;> simp [ofFields, Fields.get, hl, ih]

theorem get_toFields (k : String) (m : Dict) :
    Fields.get k (toFields m) = (Fields.get k m).map toJson := by
  induction m with
  | nil => simp [toFields]
  | cons e m ih =>
    obtain ⟨l, v⟩ := e
    by_cases hl : l = k <;> simp [toFields, Fields.get, hl, ih]

end Term

end Cerebellum
