import ContractFlow.Fault
import ContractFlow.Data.Value
import ContractFlow.Syntax.Kind

/-!
This module contains the nodes of a syntax tree: their attributes, and where they stand among the
other nodes.
-/

namespace ContractFlow

abbrev NodeId := Nat

inductive Slot where
  | one (child : NodeId)
  /-- A list of children, in which items that are no nodes leave a gap. -/
  | many (children : List (Option NodeId))
deriving Inhabited, DecidableEq

namespace Slot

def ids : Slot → List NodeId
  | one c => [c]
  | many cs => cs.filterMap id

def entries : Slot → List (Option NodeId)
  | one c => [some c]
  | many cs => cs

@[simp]
theorem mem_ids_many {cs : List (Option NodeId)} {c : NodeId} :
    c ∈ (Slot.many cs).ids ↔ some c ∈ cs := by
  simp [ids]

@[simp]
theorem mem_ids_one {c d : NodeId} : c ∈ (Slot.one d).ids ↔ c = d := by
  simp [ids]

theorem mem_ids_iff {s : Slot} {c : NodeId} : c ∈ s.ids ↔ some c ∈ s.entries := by
  cases s <;> simp [entries]

end Slot

structure Node where
  unit : Nat
  kind : Kind
  fields : Fields
  parent : Option NodeId
  role : String
  position : Option Nat
  slots : List (String × Slot)
deriving Inhabited

namespace Node

def children (n : Node) : List NodeId :=
  n.slots.flatMap fun slot => slot.2.ids

def child? (n : Node) (role : String) : Option NodeId :=
  match n.slots.lookup role with
  | some (.one c) => some c
  | _ => none

def entries (n : Node) (role : String) : List (Option NodeId) :=
  match n.slots.lookup role with
  | some slot => slot.entries
  | none => []

def attr? (n : Node) (key : String) : Option Value :=
  (Fields.get n.fields key).nonNull?

def attrText (n : Node) (key : String) : String :=
  (Fields.get n.fields key).textD

def flag (n : Node) (key : String) : Bool :=
  (Fields.get n.fields key).holds

def id? (n : Node) : Option Int :=
  (Fields.get n.fields "id").int?

def label (n : Node) : Value :=
  Fields.get n.fields "nodeType"

def word (n : Node) (key : String) : Value :=
  (Fields.get n.fields key).or ""

def name (n : Node) : Value :=
  n.word "name"

def pathName (n : Node) : Value :=
  n.name.or ((n.attr? "namePath").getD "")

def text (n : Node) : Value :=
  match n.kind with
  | .identifier | .identifierPath | .elementaryTypeName | .userDefinedTypeName =>
    n.name.or (n.word "namePath")
  | .literal => (n.attr? "value").getD (n.word "hexValue")
  | .memberAccess => n.word "memberName"
  | .binaryOperation | .unaryOperation | .assignment => n.word "operator"
  | .elementaryTypeNameExpression =>
    match Fields.get n.fields "typeName" with
    | .object fields => (Fields.get fields "name").or ""
    | v => v.or ""
  | _ => n.name

def typeString (n : Node) : Except Fault Value :=
  let description := Fields.get n.fields "typeDescriptions"
  if description.holds then
    match description with
    | .object fields => .ok ((Fields.get fields "typeString").or "")
    | _ => .error .malformedType
  else .ok ""

def reference? (n : Node) : Option Int :=
  (Fields.get n.fields "referencedDeclaration").int?

theorem lookup_mem {slots : List (String × Slot)} {role : String} {slot : Slot}
    (h : slots.lookup role = some slot) : ∃ r, (r, slot) ∈ slots := by
  induction slots with
  | nil => simp at h
  | cons head tail ih =>
    obtain ⟨r, s⟩ := head
    rw [List.lookup_cons] at h
    split at h
    · exact ⟨r, by simp_all⟩
    · obtain ⟨r', hr⟩ := ih h
      exact ⟨r', List.mem_cons_of_mem _ hr⟩

theorem mem_children_of_child? {n : Node} {role : String} {c : NodeId}
    (h : n.child? role = some c) : c ∈ n.children := by
  unfold child? at h
  split at h
  · next d hs =>
    obtain ⟨r, hr⟩ := lookup_mem hs
    simp only [Option.some.injEq] at h
    exact List.mem_flatMap.2 ⟨_, hr, by simp [h]⟩
  · simp at h

theorem mem_children_of_mem_entries {n : Node} {role : String} {c : NodeId}
    (h : some c ∈ n.entries role) : c ∈ n.children := by
  unfold entries at h
  split at h
  · next slot hs =>
    obtain ⟨r, hr⟩ := lookup_mem hs
    exact List.mem_flatMap.2 ⟨_, hr, by simpa [Slot.mem_ids_iff] using h⟩
  · simp at h

end Node

end ContractFlow
