import ContractFlow.Data.Word
import ContractFlow.Syntax.Node

/-!
This module contains the arena of syntax trees. Parents stand before their children, which is what every walk ends by.
-/

namespace ContractFlow

def asNode? : Value → Option Fields
  | .object fields => if Fields.contains fields "nodeType" then some fields else none
  | _ => none

/-- What a field of a node holds, if that is other nodes. -/
inductive Holding where
  | one (fields : Fields)
  | many (items : List (Option Fields))

structure Sprout where
  role : String
  position : Option Nat
  fields : Fields

namespace Holding

def listRoles : List String :=
  ["components", "arguments", "declarations", "statements"]

def ofValue? (role : String) (v : Value) : Option Holding :=
  match v with
  | .list items =>
    let nodes := items.map asNode?
    if nodes.any Option.isSome || listRoles.contains role then some (.many nodes) else none
  | v => (asNode? v).map .one

def skippedRoles : List String :=
  ["typeDescriptions", "documentation", "nameLocation"]

def kindOf (fields : Fields) : Kind :=
  .ofName (Fields.get fields "nodeType").textD

def rolesOf (fields : Fields) : List String :=
  match (kindOf fields).childRoles with
  | some roles => roles
  | none => (fields.map (·.1)).filter fun key => !skippedRoles.contains key

def all (fields : Fields) : List (String × Holding) :=
  (rolesOf fields).filterMap fun role =>
    (Fields.get? fields role).bind fun v => (ofValue? role v).map fun h => (role, h)

def sprouts (role : String) : Holding → List Sprout
  | one fields => [⟨role, none, fields⟩]
  | many items => (items.zipIdx).filterMap fun (item, i) => item.map fun fields => ⟨role, some i, fields⟩

def number (next : NodeId) : List (Option Fields) → List (Option NodeId)
  | [] => []
  | none :: items => none :: number next items
  | some _ :: items => some next :: number (next + 1) items

def toSlot (next : NodeId) : Holding → Slot
  | one _ => .one next
  | many items => .many (number next items)

def size : Holding → Nat
  | one _ => 1
  | many items => items.countP Option.isSome

def toSlots (next : NodeId) : List (String × Holding) → List (String × Slot)
  | [] => []
  | (role, h) :: rest => (role, h.toSlot next) :: toSlots (next + h.size) rest

def allSprouts (holdings : List (String × Holding)) : List Sprout :=
  holdings.flatMap fun (role, h) => h.sprouts role

theorem length_sprouts (role : String) (h : Holding) : (h.sprouts role).length = h.size := by
  cases h with
  | one => rfl
  | many items =>
    simp only [sprouts, size]
    suffices ∀ k, ((items.zipIdx k).filterMap fun (item, i) =>
        item.map fun fields => (⟨role, some i, fields⟩ : Sprout)).length
        = items.countP Option.isSome from this 0
    induction items with
    | nil => simp
    | cons item items ih => intro k; cases item <;> simp [ih]

theorem filterMap_number (next : Nat) (items : List (Option Fields)) :
    (number next items).filterMap id = List.range' next (items.countP Option.isSome) := by
  induction items generalizing next with
  | nil => simp [number]
  | cons item items ih =>
    cases item with
    | none => simpa [number] using ih next
    | some fields => simpa [number, List.range'_succ] using ih (next + 1)

theorem ids_toSlot (next : Nat) (h : Holding) : (h.toSlot next).ids = List.range' next h.size := by
  cases h with
  | one => simp [toSlot, Slot.ids, size]
  | many items => exact filterMap_number next items

theorem allSprouts_cons (role : String) (h : Holding) (rest : List (String × Holding)) :
    allSprouts ((role, h) :: rest) = h.sprouts role ++ allSprouts rest := by
  simp [allSprouts]

theorem ids_toSlots (next : Nat) (holdings : List (String × Holding)) :
    ((toSlots next holdings).flatMap fun slot => slot.2.ids)
      = List.range' next (allSprouts holdings).length := by
  induction holdings generalizing next with
  | nil => simp [toSlots, allSprouts]
  | cons head rest ih =>
    obtain ⟨role, h⟩ := head
    rw [toSlots, List.flatMap_cons, ih, ids_toSlot, allSprouts_cons, List.length_append,
      length_sprouts, List.range'_append_1]

theorem role_of_mem_sprouts {role : String} {h : Holding} {s : Sprout} (hs : s ∈ h.sprouts role) :
    s.role = role := by
  cases h with
  | one => simp only [sprouts, List.mem_singleton] at hs; rw [hs]
  | many items =>
    simp only [sprouts, List.mem_filterMap, Option.map_eq_some_iff] at hs
    obtain ⟨_, _, _, _, rfl⟩ := hs
    rfl

theorem role_toSlots {next c : Nat} {holdings : List (String × Holding)} {slot : String × Slot}
    (hs : slot ∈ toSlots next holdings) (hc : c ∈ slot.2.ids) :
    next ≤ c ∧ ∃ s, (allSprouts holdings)[c - next]? = some s ∧ s.role = slot.1 := by
  induction holdings generalizing next with
  | nil => simp [toSlots] at hs
  | cons head rest ih =>
    obtain ⟨role, h⟩ := head
    rw [allSprouts_cons]
    rcases List.mem_cons.1 hs with rfl | hs
    · rw [ids_toSlot, List.mem_range'_1] at hc
      have hlt : c - next < (h.sprouts role).length := by rw [length_sprouts]; omega
      refine ⟨hc.1, _, ?_, role_of_mem_sprouts (List.getElem_mem hlt)⟩
      rw [List.getElem?_append_left hlt, List.getElem?_eq_getElem hlt]
    · obtain ⟨hle, s, hget, hrole⟩ := ih hs
      refine ⟨by omega, s, ?_, hrole⟩
      rw [List.getElem?_append_right (by rw [length_sprouts]; omega), length_sprouts, ← hget]
      congr 1
      omega

theorem sizeOf_lt_of_asNode? {v : Value} {fields : Fields} (h : asNode? v = some fields) :
    sizeOf fields < sizeOf v := by
  unfold asNode? at h
  split at h
  · split at h
    · simp only [Option.some.injEq] at h; subst h; simp
    · simp at h
  · simp at h

theorem sizeOf_lt_of_mem_sprouts {role : String} {v : Value} {h : Holding} {s : Sprout}
    (hv : ofValue? role v = some h) (hs : s ∈ h.sprouts role) : sizeOf s.fields < sizeOf v := by
  unfold ofValue? at hv
  split at hv
  · next items =>
    simp only at hv
    split at hv
    · simp only [Option.some.injEq] at hv; subst hv
      simp only [sprouts, List.mem_filterMap, Prod.exists, Option.map_eq_some_iff] at hs
      obtain ⟨item, i, hmem, fields, rfl, rfl⟩ := hs
      have hmem : some fields ∈ items.map asNode? := by
        have := List.mem_zipIdx hmem
        exact List.mem_iff_getElem.2 ⟨i, by simpa using this.2.1, by simpa using this.2.2.symm⟩
      obtain ⟨v, hv, hn⟩ := List.mem_map.1 hmem
      have h1 := sizeOf_lt_of_asNode? hn
      have h2 := List.sizeOf_lt_of_mem hv
      simp; omega
    · simp at hv
  · next v _ =>
    obtain ⟨fields, hf, rfl⟩ := Option.map_eq_some_iff.1 hv
    simp only [sprouts, List.mem_singleton] at hs
    subst hs
    exact sizeOf_lt_of_asNode? hf

theorem sizeOf_lt_of_mem_allSprouts {fields : Fields} {s : Sprout}
    (hs : s ∈ allSprouts (all fields)) : sizeOf s.fields < sizeOf fields := by
  simp only [allSprouts, all, List.mem_flatMap, List.mem_filterMap, Option.bind_eq_some_iff,
    Option.map_eq_some_iff, Prod.exists] at hs
  obtain ⟨role, h, ⟨role', _, v, hget, h', hof, heq⟩, hs⟩ := hs
  simp only [Prod.mk.injEq] at heq
  obtain ⟨rfl, rfl⟩ := heq
  have h1 := sizeOf_lt_of_mem_sprouts hof hs
  have h2 := List.sizeOf_lt_of_mem (Fields.mem_of_get? hget)
  simp at h2
  omega

end Holding

/--
Parents stand before their children, and children inside the arena. No child is listed twice, and each
knows its parent and the field that holds it.
-/
def Arena.Ordered (nodes : Array Node) : Prop :=
  ∀ (i : Nat) (h : i < nodes.size),
    (∀ p : Nat, nodes[i].parent = some p → p < i) ∧
      (∀ c : Nat, c ∈ nodes[i].children → i < c ∧ c < nodes.size) ∧
      nodes[i].children.Nodup ∧
      ∀ slot ∈ nodes[i].slots, ∀ c ∈ slot.2.ids,
        ∃ child, nodes[c]? = some child ∧ child.parent = some i ∧ child.role = slot.1

instance (nodes : Array Node) : Decidable (Arena.Ordered nodes) :=
  Nat.decidableBallLT _ _

structure SourceUnit where
  file : Value
  text : List Char
  root : NodeId
deriving Inhabited

structure Arena where
  nodes : Array Node
  units : Array SourceUnit
  ordered : Arena.Ordered nodes

namespace Arena

def empty : Arena where
  nodes := #[]
  units := #[]
  ordered := by intro i h; simp at h

instance : Inhabited Arena := ⟨empty⟩

def bud (unit : Nat) (parent : NodeId) (s : Sprout) : Node where
  unit := unit
  kind := Holding.kindOf s.fields
  fields := s.fields
  parent := some parent
  role := s.role
  position := s.position
  slots := []

def sprout (unit : Nat) (nodes : Array Node) (id : NodeId) (fields : Fields) : Array Node :=
  let holdings := Holding.all fields
  nodes.modify id (fun n => { n with slots := Holding.toSlots nodes.size holdings })
    ++ ((Holding.allSprouts holdings).map (bud unit id)).toArray

@[simp]
theorem size_sprout (unit : Nat) (nodes : Array Node) (id : NodeId) (fields : Fields) :
    (sprout unit nodes id fields).size
      = nodes.size + (Holding.allSprouts (Holding.all fields)).length := by
  simp [sprout]

theorem getElem?_sprout_old (unit id : Nat) (fields : Fields) {nodes : Array Node} {i : Nat}
    (hi : i < nodes.size) :
    (sprout unit nodes id fields)[i]? = some
      (if id = i then { nodes[i] with slots := Holding.toSlots nodes.size (Holding.all fields) }
      else nodes[i]) := by
  rw [Array.getElem?_eq_getElem (by rw [size_sprout]; omega)]
  simp [sprout, hi, Array.getElem_modify]

theorem getElem?_sprout_new (unit id : Nat) (fields : Fields) {nodes : Array Node} {i : Nat}
    (hi : nodes.size ≤ i) :
    (sprout unit nodes id fields)[i]?
      = ((Holding.allSprouts (Holding.all fields))[i - nodes.size]?).map (bud unit id) := by
  rw [sprout, Array.getElem?_append_right (by simpa using hi)]
  simp

theorem ordered_sprout {unit : Nat} {nodes : Array Node} {id : Nat} {fields : Fields}
    (ho : Ordered nodes) (hid : id < nodes.size) : Ordered (sprout unit nodes id fields) := by
  intro i h
  have hsize := size_sprout unit nodes id fields
  by_cases hi : i < nodes.size
  · have hget := Array.getElem?_eq_some_iff.1 (getElem?_sprout_old unit id fields hi)
    rw [hget.2]
    obtain ⟨hparent, hbounds, hnodup, hroles⟩ := ho i hi
    split
    · next heq =>
      have hids := Holding.ids_toSlots nodes.size (Holding.all fields)
      refine ⟨hparent, fun c hc => ?_, ?_, fun slot hs c hc => ?_⟩
      · rw [Node.children, hids, List.mem_range'_1] at hc
        omega
      · rw [Node.children, hids]
        exact List.nodup_range'
      · obtain ⟨hle, s, hget, hrole⟩ := Holding.role_toSlots hs hc
        refine ⟨bud unit id s, ?_, ?_, hrole⟩
        · rw [getElem?_sprout_new unit id fields hle, hget]
          rfl
        · rw [← heq]
          rfl
    · refine ⟨hparent, fun c hc => ?_, hnodup, fun slot hs c hc => ?_⟩
      · have := hbounds c hc
        omega
      · obtain ⟨child, hchild, hp, hrole⟩ := hroles slot hs c hc
        obtain ⟨hlt, hval⟩ := Array.getElem?_eq_some_iff.1 hchild
        refine ⟨_, getElem?_sprout_old unit id fields hlt, ?_⟩
        rw [hval]
        split
        · exact ⟨hp, hrole⟩
        · exact ⟨hp, hrole⟩
  · have hnew := getElem?_sprout_new unit id fields (Nat.le_of_not_lt hi)
    rw [Array.getElem?_eq_getElem h] at hnew
    obtain ⟨s, -, hs⟩ := Option.map_eq_some_iff.1 hnew.symm
    rw [← hs]
    refine ⟨fun p hp => ?_, fun c hc => ?_, List.nodup_nil, fun slot hslot => ?_⟩
    · have hp : id = p := Option.some.inj hp
      omega
    · simp [Node.children, bud] at hc
    · simp [bud] at hslot

/--
Grows the subtree below the node `id`: all its children are numbered, then the last child grows, then
the one before it, and so on.
-/
def grow (unit : Nat) (nodes : Array Node) (ho : Ordered nodes) (id : Nat)
    (hid : id < nodes.size) (fields : Fields) :
    { out : Array Node // Ordered out ∧ nodes.size ≤ out.size } :=
  let sprouts := Holding.allSprouts (Holding.all fields)
  let first := nodes.size
  let planted := sprout unit nodes id fields
  let start : { out : Array Node // Ordered out ∧ planted.size ≤ out.size } :=
    ⟨planted, ordered_sprout ho hid, Nat.le_refl _⟩
  let grown := (sprouts.zipIdx first).attach.foldr
    (fun (child : { c // c ∈ sprouts.zipIdx first })
        (acc : { out : Array Node // Ordered out ∧ planted.size ≤ out.size }) =>
      have hmem := List.mem_zipIdx child.2
      have hc : child.1.2 < acc.1.size := by
        have h1 := acc.2.2
        have h2 : planted.size = nodes.size + sprouts.length := size_sprout ..
        have h3 : child.1.2 < first + sprouts.length := hmem.2.1
        exact Nat.lt_of_lt_of_le h3 (Nat.le_trans (Nat.le_of_eq h2.symm) h1)
      have : sizeOf child.1.1.fields < sizeOf fields := by
        apply Holding.sizeOf_lt_of_mem_allSprouts
        rw [hmem.2.2]
        exact List.getElem_mem _
      let next := grow unit acc.1 acc.2.1 child.1.2 hc child.1.1.fields
      ⟨next.1, next.2.1, Nat.le_trans acc.2.2 next.2.2⟩)
    start
  ⟨grown.1, grown.2.1, Nat.le_trans (by simp [planted]) grown.2.2⟩
termination_by sizeOf fields

def seed (unit : Nat) (fields : Fields) : Node where
  unit := unit
  kind := Holding.kindOf fields
  fields := fields
  parent := none
  role := ""
  position := none
  slots := []

theorem ordered_push {nodes : Array Node} {unit : Nat} {fields : Fields} (ho : Ordered nodes) :
    Ordered (nodes.push (seed unit fields)) := by
  intro i h
  rw [Array.getElem_push]
  split
  · next hi =>
    obtain ⟨hparent, hbounds, hnodup, hroles⟩ := ho i hi
    refine ⟨hparent, fun c hc => ?_, hnodup, fun slot hs c hc => ?_⟩
    · have := hbounds c hc
      simp; omega
    · obtain ⟨child, hchild, hp, hrole⟩ := hroles slot hs c hc
      refine ⟨child, ?_, hp, hrole⟩
      obtain ⟨hlt, -⟩ := Array.getElem?_eq_some_iff.1 hchild
      rw [Array.getElem?_push_lt hlt, ← hchild, Array.getElem?_eq_getElem hlt]
  · simp [seed, Node.children]

def plant (a : Arena) (fields : Fields) (file : Value) (text : String) : Arena :=
  let unit := a.units.size
  let root := a.nodes.size
  let grown := grow unit (a.nodes.push (seed unit fields)) (ordered_push a.ordered) root
    (by simp [root]) fields
  { nodes := grown.1
    units := a.units.push ⟨file, text.toList, root⟩
    ordered := grown.2.1 }

def badKind (n : Node) : Bool :=
  !n.label.isKey

structure Source where
  file : Value
  ast : Value
  text : Value

/--
Plants one more syntax tree. A tree without a file name of its own takes the path that it names.
-/
def add (a : Arena) (s : Source) : Except Fault Arena :=
  match asNode? s.ast with
  | none => .error .notATree
  | some fields => do
    let text ← (s.text.or "").asText
    let planted := a.plant fields (s.file.or ((Fields.get? fields "absolutePath").getD "")) text
    if planted.nodes.any badKind then .error .malformedKind else .ok planted

def Source.insert (s : Source) : List Source → List Source
  | [] => [s]
  | t :: rest => if s.file == t.file then { s with file := t.file } :: rest else t :: s.insert rest

def ofSources (sources : List Source) : Except Fault Arena := do
  sources.forM fun s => do
    let _ ← s.file.asKey
  (sources.foldl (fun ts s => s.insert ts) []).foldlM add empty

/-! Queries on single nodes -/

def size (a : Arena) : Nat :=
  a.nodes.size

def node (a : Arena) (n : NodeId) : Node :=
  a.nodes.getD n default

def kind (a : Arena) (n : NodeId) : Kind :=
  (a.node n).kind

def label (a : Arena) (n : NodeId) : Value :=
  (a.node n).label

def name (a : Arena) (n : NodeId) : Value :=
  (a.node n).name

def text (a : Arena) (n : NodeId) : Value :=
  (a.node n).text

def role (a : Arena) (n : NodeId) : String :=
  (a.node n).role

def parent? (a : Arena) (n : NodeId) : Option NodeId :=
  (a.node n).parent

def children (a : Arena) (n : NodeId) : List NodeId :=
  (a.node n).children

def child? (a : Arena) (n : NodeId) (role : String) : Option NodeId :=
  (a.node n).child? role

def entries (a : Arena) (n : NodeId) (role : String) : List (Option NodeId) :=
  (a.node n).entries role

def items (a : Arena) (n : NodeId) (role : String) : List NodeId :=
  (a.entries n role).filterMap id

theorem node_of_not_lt {a : Arena} {n : Nat} (h : ¬ n < a.size) : a.node n = default := by
  simp [node, Array.getD, size] at *
  omega

theorem lt_of_parent? {a : Arena} {n p : Nat} (h : a.parent? n = some p) : p < n := by
  by_cases hn : n < a.nodes.size
  · exact (a.ordered n hn).1 p (by simpa [parent?, node, Array.getD, hn] using h)
  · rw [parent?, node_of_not_lt hn] at h
    simp [default, instInhabitedNode.default] at h

theorem lt_of_mem_children {a : Arena} {n c : Nat} (h : c ∈ a.children n) :
    n < c ∧ c < a.size := by
  by_cases hn : n < a.nodes.size
  · exact (a.ordered n hn).2.1 c (by simpa [children, node, Array.getD, hn] using h)
  · rw [children, node_of_not_lt hn] at h
    simp [default, instInhabitedNode.default, Node.children] at h

theorem nodup_children (a : Arena) (n : NodeId) : (a.children n).Nodup := by
  by_cases hn : n < a.nodes.size
  · have := (a.ordered n hn).2.2.1
    simpa [children, node, Array.getD, hn] using this
  · rw [children, node_of_not_lt hn]
    simp [default, instInhabitedNode.default, Node.children]

theorem parent?_of_mem_slot {a : Arena} {n c : Nat} {slot : String × Slot}
    (hs : slot ∈ (a.node n).slots) (hc : c ∈ slot.2.ids) :
    a.parent? c = some n ∧ a.role c = slot.1 := by
  by_cases hn : n < a.nodes.size
  · have hget : a.node n = a.nodes[n] := by simp [node, Array.getD, hn]
    rw [hget] at hs
    obtain ⟨child, hchild, hp, hrole⟩ := (a.ordered n hn).2.2.2 slot hs c hc
    have hnode : a.node c = child := by simp [node, Array.getD_eq_getD_getElem?, hchild]
    rw [parent?, role, hnode]
    exact ⟨hp, hrole⟩
  · rw [node_of_not_lt hn] at hs
    simp [default, instInhabitedNode.default] at hs

theorem parent?_of_mem_children {a : Arena} {n c : Nat} (h : c ∈ a.children n) :
    a.parent? c = some n := by
  obtain ⟨slot, hs, hc⟩ := List.mem_flatMap.1 h
  exact (parent?_of_mem_slot hs hc).1

theorem lt_of_child? {a : Arena} {n c : Nat} {role : String} (h : a.child? n role = some c) :
    n < c ∧ c < a.size :=
  lt_of_mem_children (Node.mem_children_of_child? h)

theorem lt_of_mem_entries {a : Arena} {n c : Nat} {role : String}
    (h : some c ∈ a.entries n role) : n < c ∧ c < a.size :=
  lt_of_mem_children (Node.mem_children_of_mem_entries h)

theorem lt_of_mem_items {a : Arena} {n c : Nat} {role : String} (h : c ∈ a.items n role) :
    n < c ∧ c < a.size :=
  lt_of_mem_entries (by simpa [items] using h)

end Arena

end ContractFlow
