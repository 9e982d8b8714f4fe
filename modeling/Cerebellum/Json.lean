import Mathlib.Data.List.Basic

/-! JSON values as the program holds them: `serde_json::Value` on the Rust side, the
dicts that `json_read_dict` builds from the same text on the Prolog side. -/
namespace Cerebellum

/-- A JSON number is kept as a decimal, `mantissa * 10^(-exponent)`. -/
inductive Json where
  | null
  | bool (b : Bool)
  | num (mantissa : Int) (exponent : Nat)
  | str (s : String)
  | arr (xs : List Json)
  | obj (fields : List (String × Json))
  deriving Repr, Inhabited

/-- Fields of a JSON object. `serde_json::Map` keeps them sorted by key; so do the dicts. -/
abbrev Fields := List (String × Json)

namespace Json

mutual
def decEq : (a b : Json) → Decidable (a = b)
  | .null, .null => isTrue rfl
  | .bool a, .bool b => decidable_of_iff (a = b) (by simp)
  | .num m e, .num m' e' => decidable_of_iff (m = m' ∧ e = e') (by simp)
  | .str a, .str b => decidable_of_iff (a = b) (by simp)
  | .arr a, .arr b => letI := decEqList a b; decidable_of_iff (a = b) (by simp)
  | .obj a, .obj b => letI := decEqFields a b; decidable_of_iff (a = b) (by simp)
  | .null, .bool _ | .null, .num _ _ | .null, .str _ | .null, .arr _ | .null, .obj _
  | .bool _, .null | .bool _, .num _ _ | .bool _, .str _ | .bool _, .arr _ | .bool _, .obj _
  | .num _ _, .null | .num _ _, .bool _ | .num _ _, .str _ | .num _ _, .arr _ | .num _ _, .obj _
  | .str _, .null | .str _, .bool _ | .str _, .num _ _ | .str _, .arr _ | .str _, .obj _
  | .arr _, .null | .arr _, .bool _ | .arr _, .num _ _ | .arr _, .str _ | .arr _, .obj _
  | .obj _, .null | .obj _, .bool _ | .obj _, .num _ _ | .obj _, .str _ | .obj _, .arr _ =>
    isFalse (by simp)
def decEqList : (a b : List Json) → Decidable (a = b)
  | [], [] => isTrue rfl
  | [], _ :: _ | _ :: _, [] => isFalse (by simp)
  | x :: xs, y :: ys =>
    letI := decEq x y
    letI := decEqList xs ys
    decidable_of_iff (x = y ∧ xs = ys) (by simp)
def decEqFields : (a b : List (String × Json)) → Decidable (a = b)
  | [], [] => isTrue rfl
  | [], _ :: _ | _ :: _, [] => isFalse (by simp)
  | (k, x) :: xs, (l, y) :: ys =>
    letI := decEq x y
    letI := decEqFields xs ys
    decidable_of_iff (k = l ∧ x = y ∧ xs = ys) (by simp [and_assoc])
end

instance : DecidableEq Json := decEq

def asObject : Json → Option Fields
  | .obj m => some m
  | _ => none

def asStr : Json → Option String
  | .str s => some s
  | _ => none

def asBool : Json → Option Bool
  | .bool b => some b
  | _ => none

def asArray : Json → Option (List Json)
  | .arr xs => some xs
  | _ => none

end Json

namespace Fields
variable {α : Type*}

def get (k : String) : List (String × α) → Option α
  | [] => none
  | (l, v) :: m => if l = k then some v else get k m

/-- Insert or replace, at the key's place in key order. -/
def insert (k : String) (v : α) : List (String × α) → List (String × α)
  | [] => [(k, v)]
  | (l, w) :: m =>
    if l = k then (k, v) :: m
    else if k < l then (k, v) :: (l, w) :: m
    else (l, w) :: insert k v m

def remove (k : String) (m : List (String × α)) : List (String × α) := m.filter fun e => e.1 ≠ k

@[simp] theorem get_nil (k : String) : get k ([] : List (String × α)) = none := rfl

@[simp] theorem get_insert_self (k : String) (v : α) (m : List (String × α)) :
    get k (insert k v m) = some v := by
  induction m with
  | nil => simp [insert, get]
  | cons e m ih =>
    obtain ⟨l, w⟩ := e
    by_cases hl : l = k
    · simp [insert, hl, get]
    · by_cases hlt : k < l
      · simp [insert, hl, hlt, get]
      · simpa [insert, hl, hlt, get] using ih

theorem get_insert_ne {k l : String} (h : l ≠ k) (v : α) (m : List (String × α)) :
    get l (insert k v m) = get l m := by
  have hk : k ≠ l := h.symm
  induction m with
  | nil => simp [insert, get, hk]
  | cons e m ih =>
    obtain ⟨j, w⟩ := e
    by_cases hj : j = k
    · subst hj
      simp [insert, get, hk]
    · by_cases hlt : k < j
      · simp [insert, hj, hlt, get, hk]
      · simp [insert, hj, hlt, get, ih]

theorem get_insert (k l : String) (v : α) (m : List (String × α)) :
    get l (insert k v m) = if l = k then some v else get l m := by
  by_cases h : l = k
  · subst h
    simp
  · simp [h, get_insert_ne h]

end Fields

/-- `Value::get` with a string key: only objects have members. -/
def Json.get (j : Json) (k : String) : Option Json :=
  j.asObject.bind (Fields.get k)

@[simp] theorem Json.get_obj (m : Fields) (k : String) : (Json.obj m).get k = Fields.get k m := rfl

/-- `Value::get(key).and_then(as_str)`. -/
def Json.strField (j : Json) (k : String) : Option String :=
  (j.get k).bind Json.asStr

end Cerebellum
