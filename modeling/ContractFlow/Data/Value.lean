import ContractFlow.Data.Double

/-!
This module contains the dynamic values that compiler output, settings and manifests are made of.
-/

namespace ContractFlow

/--
A JSON-like value. Objects keep the order in which their fields were written.
-/
inductive Value where
  | null
  | bool (b : Bool)
  | int (n : Int)
  | float (x : Double)
  | text (s : String)
  | list (items : List Value)
  | object (fields : List (String × Value))
deriving Inhabited

abbrev Fields := List (String × Value)

namespace Fields

def get? (fields : Fields) (key : String) : Option Value :=
  fields.lookup key

def get (fields : Fields) (key : String) : Value :=
  (fields.get? key).getD .null

def contains (fields : Fields) (key : String) : Bool :=
  (fields.get? key).isSome

def set (fields : Fields) (key : String) (value : Value) : Fields :=
  match fields with
  | [] => [(key, value)]
  | (k, v) :: rest => if k == key then (k, value) :: rest else (k, v) :: set rest key value

theorem mem_of_get? {fields : Fields} {key : String} {value : Value}
    (h : fields.get? key = some value) : (key, value) ∈ fields := by
  induction fields with
  | nil => simp [get?] at h
  | cons head tail ih =>
    obtain ⟨k, v⟩ := head
    unfold get? at h ih
    rw [List.lookup_cons] at h
    split at h
    · next hk =>
      have hk : key = k := by simpa using hk
      simp at h
      simp [hk, h]
    · exact List.mem_cons_of_mem _ (ih h)

end Fields

namespace Value

def holds : Value → Bool
  | .null => false
  | .bool b => b
  | .int n => n != 0
  | .float x => !x.isZero
  | .text s => !s.isEmpty
  | .list items => !items.isEmpty
  | .object fields => !fields.isEmpty

def text? : Value → Option String
  | .text s => some s
  | _ => none

def textD (v : Value) : String :=
  v.text?.getD ""

mutual

/--
Whether two values are equal. Numbers are compared by what they denote, where the truth values count as
`1` and `0`, and objects without regard to the order of their fields.
-/
def same : Value → Value → Bool
  | .null, .null => true
  | .bool b, .bool c => b == c
  | .bool b, .int n => n == if b then 1 else 0
  | .int n, .bool b => n == if b then 1 else 0
  | .int m, .int n => m == n
  | .bool b, .float x => x.compareInt (if b then 1 else 0) == some .eq
  | .float x, .bool b => x.compareInt (if b then 1 else 0) == some .eq
  | .int n, .float x => x.compareInt n == some .eq
  | .float x, .int n => x.compareInt n == some .eq
  | .float x, .float y => x.same y
  | .text s, .text t => s == t
  | .list xs, .list ys => sameItems xs ys
  | .object fields, .object others => fields.length == others.length && sameFields fields others
  | _, _ => false

def sameItems : List Value → List Value → Bool
  | [], [] => true
  | x :: xs, y :: ys => same x y && sameItems xs ys
  | _, _ => false

def sameFields : List (String × Value) → List (String × Value) → Bool
  | [], _ => true
  | (k, v) :: fields, others =>
    (others.any fun other => k == other.1 && same v other.2) && sameFields fields others

end

mutual

theorem same_refl : (v : Value) → same v v = true
  | .null => rfl
  | .bool b => by simp [same]
  | .int n => by simp [same]
  | .float x => by simp [same]
  | .text s => by simp [same]
  | .list items => by simp [same, sameItems_refl items]
  | .object fields => by simp [same, sameFields_of_mem fields fields fun _ h => h]

theorem sameItems_refl : (items : List Value) → sameItems items items = true
  | [] => rfl
  | v :: items => by simp [sameItems, same_refl v, sameItems_refl items]

theorem sameFields_of_mem : (fields others : List (String × Value)) →
    (∀ f ∈ fields, f ∈ others) → sameFields fields others = true
  | [], _, _ => rfl
  | (k, v) :: fields, others, h => by
    have hv : (others.any fun other => k == other.1 && same v other.2) = true :=
      List.any_eq_true.2 ⟨(k, v), h _ List.mem_cons_self, by simp [same_refl v]⟩
    simp [sameFields, hv, sameFields_of_mem fields others fun f hf => h f (List.mem_cons_of_mem _ hf)]

end

instance : BEq Value := ⟨same⟩

instance : ReflBEq Value := ⟨same_refl _⟩

instance : Coe String Value := ⟨.text⟩

def or (v other : Value) : Value :=
  if v.holds then v else other

def isOneOf (v : Value) (words : List String) : Bool :=
  match v with
  | .text s => words.contains s
  | _ => false

def int? : Value → Option Int
  | .int n => some n
  | .bool b => some (if b then 1 else 0)
  | _ => none

def fields? : Value → Option Fields
  | .object fields => some fields
  | _ => none

def list? : Value → Option (List Value)
  | .list items => some items
  | _ => none

def items (v : Value) : List Value :=
  v.list?.getD []

def get (v : Value) (key : String) : Value :=
  match v with
  | .object fields => Fields.get fields key
  | _ => .null

def isKey : Value → Bool
  | .list _ | .object _ => false
  | _ => true

def compareInt? (n : Int) : Value → Option (Option Ordering)
  | .int m => some (some (compare n m))
  | .bool b => some (some (compare n (if b then 1 else 0)))
  | .float x => some (x.compareInt n)
  | _ => none

def array (f : α → Value) (xs : List α) : Value :=
  .list (xs.map f)

def option (f : α → Value) (x : Option α) : Value :=
  (x.map f).getD .null

def nonNull? : Value → Option Value
  | .null => none
  | v => some v

end Value

end ContractFlow
